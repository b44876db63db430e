import Mathlib

/-! Deterministic machines over labelled inputs. The input carries every choice of
the environment, and each step emits what an observer of the system sees, so that
an interleaving is a list of inputs and its history is the emitted list. -/
namespace PersonaMessage.Transitions

/-- An input that is not enabled in a state gives `none`. -/
structure Machine (σ ι ο : Type*) where
  step : σ → ι → Option (σ × List ο)

namespace Machine
variable {σ ι ο : Type*} (M : Machine σ ι ο)

def run : σ → List ι → Option (σ × List ο)
  | s, [] => some (s, [])
  | s, i :: is =>
      match M.step s i with
      | none => none
      | some (t, out) =>
          match run t is with
          | none => none
          | some (u, rest) => some (u, out ++ rest)

/-- Every step of the run is taken from a state that meets the condition. -/
def Along (P : σ → ι → Prop) : σ → List ι → Prop
  | _, [] => True
  | s, i :: is => P s i ∧ ∀ t out, M.step s i = some (t, out) → Along P t is

variable {M}

theorem run_cons {s u : σ} {i : ι} {is : List ι} {log : List ο} :
    M.run s (i :: is) = some (u, log) ↔
      ∃ t out rest, M.step s i = some (t, out) ∧ M.run t is = some (u, rest) ∧
        log = out ++ rest := by
  constructor
  · intro h
    simp only [run] at h
    split at h
    · cases h
    · next t out hs =>
      split at h
      · cases h
      · next v rest hr =>
        obtain ⟨rfl, rfl⟩ := Prod.mk.inj (Option.some.inj h)
        exact ⟨t, out, rest, hs, hr, rfl⟩
  · rintro ⟨t, out, rest, hs, hr, rfl⟩
    simp [run, hs, hr]

/-- Two runs that meet in a state compose, and so do their histories. -/
theorem run_append {s t u : σ} {is js : List ι} {log more : List ο}
    (h : M.run s is = some (t, log)) (g : M.run t js = some (u, more)) :
    M.run s (is ++ js) = some (u, log ++ more) := by
  induction is generalizing s log with
  | nil =>
    obtain ⟨rfl, rfl⟩ := Prod.mk.inj (Option.some.inj h)
    exact g
  | cons i is ih =>
    obtain ⟨v, out, rest, hs, hr, rfl⟩ := run_cons.mp h
    exact run_cons.mpr ⟨v, out, rest ++ more, hs, ih hr, by simp⟩

theorem run_one {s t : σ} {i : ι} {out : List ο} (h : M.step s i = some (t, out)) :
    M.run s [i] = some (t, out) := by simp [run, h]

variable (M) in
/-- Some run leads from one state to the other with this history. -/
def Reaches (s : σ) (log : List ο) (t : σ) : Prop := ∃ is, M.run s is = some (t, log)

theorem Reaches.refl (s : σ) : M.Reaches s [] s := ⟨[], rfl⟩

theorem Reaches.one {s t : σ} {i : ι} {out : List ο} (h : M.step s i = some (t, out)) :
    M.Reaches s out t := ⟨[i], run_one h⟩

theorem Reaches.trans {s t u : σ} {log more : List ο} (h : M.Reaches s log t)
    (g : M.Reaches t more u) : M.Reaches s (log ++ more) u := by
  obtain ⟨is, hr⟩ := h
  obtain ⟨js, hr'⟩ := g
  exact ⟨is ++ js, run_append hr hr'⟩

/-- Steps that nobody sees, before others. -/
theorem Reaches.after {s t u : σ} {log : List ο} (g : M.Reaches t log u)
    (h : M.Reaches s [] t) : M.Reaches s log u := h.trans g

/-- Where every step emits one entry, a run divides at each entry of its history. -/
theorem run_divide (hone : ∀ {s i t out}, M.step s i = some (t, out) → out.length = 1)
    {s t : σ} {is : List ι} {before after : List ο} {o : ο}
    (h : M.run s is = some (t, before ++ o :: after)) :
    ∃ is₁ i is₂ u v, is = is₁ ++ i :: is₂ ∧ M.run s is₁ = some (u, before) ∧
      M.step u i = some (v, [o]) ∧ M.run v is₂ = some (t, after) := by
  induction is generalizing s before with
  | nil => simp [run] at h
  | cons i is ih =>
    obtain ⟨u, out, rest, hs, hr, heq⟩ := run_cons.mp h
    obtain ⟨e, rfl⟩ := List.length_eq_one_iff.mp (hone hs)
    cases before with
    | nil =>
      obtain ⟨rfl, rfl⟩ := List.cons.inj heq
      exact ⟨[], i, is, s, u, rfl, rfl, hs, hr⟩
    | cons first before =>
      obtain ⟨rfl, rfl⟩ := List.cons.inj heq
      obtain ⟨is₁, j, is₂, v, w, rfl, hr₁, hj, hr₂⟩ := ih hr
      exact ⟨i :: is₁, j, is₂, v, w, rfl, run_cons.mpr ⟨u, _, _, hs, hr₁, rfl⟩, hj, hr₂⟩

/-- A history invariant that every conditioned step preserves holds after the run. -/
theorem run_invariant_along {P : σ → ι → Prop} {Inv : List ο → σ → Prop}
    (hstep : ∀ {log s i t out}, Inv log s → P s i → M.step s i = some (t, out) →
      Inv (log ++ out) t)
    {s t : σ} {is : List ι} {before log : List ο} (h0 : Inv before s) (hP : M.Along P s is)
    (hr : M.run s is = some (t, log)) : Inv (before ++ log) t := by
  induction is generalizing s before log with
  | nil =>
    obtain ⟨rfl, rfl⟩ := Prod.mk.inj (Option.some.inj hr)
    simpa using h0
  | cons i is ih =>
    obtain ⟨u, out, rest, hs, hr', rfl⟩ := run_cons.mp hr
    have hu := ih (hstep h0 hP.1 hs) (hP.2 u out hs) hr'
    simpa using hu

theorem along_of {P : σ → ι → Prop} (h : ∀ s i, P s i) (s : σ) (is : List ι) :
    M.Along P s is := by
  induction is generalizing s with
  | nil => exact trivial
  | cons i is ih => exact ⟨h s i, fun t _ _ => ih t⟩

/-- The unconditioned case: a history invariant of the steps holds of every run. -/
theorem run_invariant {Inv : List ο → σ → Prop}
    (hstep : ∀ {log s i t out}, Inv log s → M.step s i = some (t, out) → Inv (log ++ out) t)
    {s t : σ} {is : List ι} {log : List ο} (h0 : Inv [] s)
    (hr : M.run s is = some (t, log)) : Inv log t := by
  have h := run_invariant_along (fun hi _ hs => hstep hi hs) h0
    (along_of (fun _ _ => trivial) s is) hr
  simpa using h

/-- A machine whose steps are matched by a second one, or invisible to it, has its runs
matched too. -/
theorem run_project {σ' ι' ο' : Type*} {N : Machine σ' ι' ο'} (f : σ → σ') (g : ι → Option ι')
    (seen : ο → Option ο')
    (hstep : ∀ {s i t out}, M.step s i = some (t, out) →
      (∃ j, g i = some j ∧ N.step (f s) j = some (f t, out.filterMap seen)) ∨
      (g i = none ∧ f t = f s ∧ out.filterMap seen = []))
    {s t : σ} {is : List ι} {log : List ο} (hr : M.run s is = some (t, log)) :
    N.run (f s) (is.filterMap g) = some (f t, log.filterMap seen) := by
  induction is generalizing s log with
  | nil =>
    obtain ⟨rfl, rfl⟩ := Prod.mk.inj (Option.some.inj hr)
    rfl
  | cons i is ih =>
    obtain ⟨u, out, rest, hs, hr', rfl⟩ := run_cons.mp hr
    rcases hstep hs with ⟨j, hj, hn⟩ | ⟨hj, hf, ho⟩
    · rw [List.filterMap_cons_some hj, List.filterMap_append]
      exact run_cons.mpr ⟨f u, _, _, hn, ih hr', rfl⟩
    · rw [List.filterMap_cons_none hj, List.filterMap_append, ho, List.nil_append, ← hf]
      exact ih hr'

/-- A rank that pays for every step, up to what its input allows for, bounds the cost of a
run. -/
theorem run_amortised {Inv : List ο → σ → Prop} {rank : σ → ℕ} {cost allowance : ι → ℕ}
    (hstep : ∀ {log s i t out}, Inv log s → M.step s i = some (t, out) → Inv (log ++ out) t)
    (hpays : ∀ {log s i t out}, Inv log s → M.step s i = some (t, out) →
      rank t+cost i ≤ rank s+allowance i)
    {s t : σ} {is : List ι} {before log : List ο} (h0 : Inv before s)
    (hr : M.run s is = some (t, log)) :
    rank t+(is.map cost).sum ≤ rank s+(is.map allowance).sum := by
  induction is generalizing s before log with
  | nil =>
    obtain ⟨rfl, rfl⟩ := Prod.mk.inj (Option.some.inj hr)
    exact le_rfl
  | cons i is ih =>
    obtain ⟨u, out, rest, hs, hr', rfl⟩ := run_cons.mp hr
    have hone := hpays h0 hs
    have hlater := ih (hstep h0 hs) hr'
    simp only [List.map_cons, List.sum_cons]
    omega

end Machine

/-- One entry of the history comes before another. -/
def Precedes {ο : Type*} (log : List ο) (a b : ο) : Prop :=
  ∃ before after, log = before ++ after ∧ a ∈ before ∧ b ∈ after

theorem Precedes.mem_left {ο : Type*} {log : List ο} {a b : ο} (h : Precedes log a b) :
    a ∈ log := by
  obtain ⟨before, after, rfl, ha, _⟩ := h
  exact List.mem_append_left after ha

theorem Precedes.mem_right {ο : Type*} {log : List ο} {a b : ο} (h : Precedes log a b) :
    b ∈ log := by
  obtain ⟨before, after, rfl, _, hb⟩ := h
  exact List.mem_append_right before hb

theorem precedes_adjacent {ο : Type*} (before after : List ο) (a b : ο) :
    Precedes (before ++ a :: b :: after) a b :=
  ⟨before ++ [a], b :: after, by simp, by simp, by simp⟩

/-- The entries of one party are in the order of the whole history. -/
theorem Precedes.of_filter {ο : Type*} {log : List ο} {p : ο → Bool} {a b : ο}
    (h : Precedes (log.filter p) a b) : Precedes log a b := by
  obtain ⟨before, after, he, ha, hb⟩ := h
  obtain ⟨before', after', rfl, rfl, rfl⟩ := List.filter_eq_append_iff.mp he
  exact ⟨before', after', rfl, (List.mem_filter.mp ha).1, (List.mem_filter.mp hb).1⟩

end PersonaMessage.Transitions
