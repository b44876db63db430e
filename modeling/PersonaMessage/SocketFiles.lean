import Mathlib

/-! Socket files: a map from paths to the listener bound there and the mode of its file.
Removing and binding work by path and do not look at what the path holds. -/
namespace PersonaMessage.SocketFiles

abbrev FileMode := UInt32

structure SocketFile (κ : Type*) where
  listener : κ
  mode : FileMode
  deriving DecidableEq

abbrev Files (π κ : Type*) := π → Option (SocketFile κ)

/-- The mode of a file that `bind` creates. -/
def createdMode (umask : FileMode) : FileMode := 0o777 &&& ~~~umask

/-- A process as the permission check sees it. -/
structure Credentials where
  userId : UInt32
  groupId : UInt32
  supplementary : List UInt32
  deriving DecidableEq

/-- Write access to a file of the given owner: its class decides, and root passes. -/
def grantsWrite (owner : Credentials) (mode : FileMode) (client : Credentials) : Bool :=
  client.userId == 0 ||
    if client.userId = owner.userId then mode &&& 0o200 != 0
    else if owner.groupId ∈ client.groupId :: client.supplementary then mode &&& 0o020 != 0
    else mode &&& 0o002 != 0

namespace Files
variable {π κ : Type*} [DecidableEq π]

def unlink (fs : Files π κ) (path : π) : Files π κ := Function.update fs path none

def listen (fs : Files π κ) (path : π) (listener : κ) (mode : FileMode) : Files π κ :=
  Function.update fs path (some ⟨listener, mode⟩)

def chmod (fs : Files π κ) (path : π) (mode : FileMode) : Files π κ :=
  Function.update fs path ((fs path).map fun file => { file with mode })

@[simp] theorem unlink_self (fs : Files π κ) (p : π) : fs.unlink p p = none :=
  Function.update_self ..

theorem unlink_of_ne {fs : Files π κ} {p q : π} (h : q ≠ p) : fs.unlink p q = fs q :=
  Function.update_of_ne h ..

@[simp] theorem listen_self (fs : Files π κ) (p : π) (k : κ) (mode : FileMode) :
    fs.listen p k mode p = some ⟨k, mode⟩ := Function.update_self ..

theorem listen_of_ne {fs : Files π κ} {p q : π} (h : q ≠ p) (k : κ) (mode : FileMode) :
    fs.listen p k mode q = fs q := Function.update_of_ne h ..

/-- Setting the mode right after binding leaves one file in place of whatever was there. -/
theorem chmod_listen (fs : Files π κ) (p : π) (k : κ) (created mode : FileMode) :
    (((fs.unlink p).listen p k created).chmod p mode) = fs.listen p k mode := by
  funext q
  by_cases h : q = p
  · subst h
    simp [chmod, listen]
  · simp [chmod, listen, unlink, h]

end Files
end PersonaMessage.SocketFiles
