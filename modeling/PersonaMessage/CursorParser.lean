import Mathlib

/-! Parsers over a list of words and an index into it, as a `struct` with a slice and a
position. What a parser accepts is stated as a relation between its result and the words it
takes, and sequencing parsers is concatenating words. -/
namespace PersonaMessage.CursorParser

structure Cursor (ω : Type) where
  arguments : List ω
  index : ℕ
  deriving DecidableEq

abbrev Parser (ε ω α : Type) := EStateM ε (Cursor ω) α

variable {ε ω α β : Type}

namespace Cursor

/-- The words that have not been taken. -/
def rest (c : Cursor ω) : List ω := c.arguments.drop c.index

def skip (c : Cursor ω) (n : ℕ) : Cursor ω := { c with index := c.index+n }

theorem rest_skip (c : Cursor ω) (n : ℕ) : (c.skip n).rest = c.rest.drop n := by
  simp only [rest, skip, List.drop_drop]

theorem skip_skip (c : Cursor ω) (m n : ℕ) : (c.skip m).skip n = c.skip (m+n) := by
  simp only [skip, Nat.add_assoc]

theorem head_rest (c : Cursor ω) : c.arguments[c.index]? = c.rest.head? := by
  rw [rest, List.head?_drop]

end Cursor

/-- The parser succeeds exactly on words in this relation with its result, and takes them. -/
def Reads (p : Parser ε ω α) (R : α → List ω → Prop) : Prop :=
  ∀ c a c', p.run c = .ok a c' ↔
    ∃ words, R a words ∧ words <+: c.rest ∧ c' = c.skip words.length

theorem run_bind_ok {p : Parser ε ω α} {f : α → Parser ε ω β} {c c' : Cursor ω} {b : β} :
    (p >>= f).run c = .ok b c' ↔ ∃ a d, p.run c = .ok a d ∧ (f a).run d = .ok b c' := by
  change (EStateM.bind p f) c = _ ↔ _
  unfold EStateM.bind
  cases hp : p c with
  | ok a d =>
    constructor
    · exact fun h => ⟨a, d, hp, h⟩
    · rintro ⟨a', d', hp', h⟩
      obtain ⟨rfl, rfl⟩ := EStateM.Result.ok.inj (hp.symm.trans hp')
      exact h
  | error e d =>
    constructor
    · intro h
      cases h
    · rintro ⟨a', d', hp', h⟩
      cases hp.symm.trans hp'

theorem run_get_bind (f : Cursor ω → Parser ε ω α) (c : Cursor ω) :
    ((get : Parser ε ω (Cursor ω)) >>= f).run c = (f c).run c := rfl

theorem run_bind_congr {p q : Parser ε ω α} {c : Cursor ω} (h : p.run c = q.run c)
    (f : α → Parser ε ω β) : (p >>= f).run c = (q >>= f).run c := by
  change (EStateM.bind p f) c = (EStateM.bind q f) c
  unfold EStateM.bind
  rw [show p c = q c from h]

theorem run_bind_of_ok {p : Parser ε ω α} {c d : Cursor ω} {a : α} (h : p.run c = .ok a d)
    (f : α → Parser ε ω β) : (p >>= f).run c = (f a).run d := by
  change (EStateM.bind p f) c = _
  unfold EStateM.bind
  rw [show p c = .ok a d from h]
  rfl

theorem prefix_append_iff {u v l : List ω} :
    u ++ v <+: l ↔ u <+: l ∧ v <+: l.drop u.length := by
  constructor
  · rintro ⟨t, rfl⟩
    exact ⟨⟨v ++ t, by rw [List.append_assoc]⟩, ⟨t, by simp⟩⟩
  · rintro ⟨⟨t, rfl⟩, ⟨t', ht⟩⟩
    rw [List.drop_left] at ht
    exact ⟨t', by rw [List.append_assoc, ht]⟩

theorem Reads.bind {p : Parser ε ω α} {f : α → Parser ε ω β} {R : α → List ω → Prop}
    {S : α → β → List ω → Prop} (hp : Reads p R) (hf : ∀ a, Reads (f a) (S a)) :
    Reads (p >>= f) fun b words => ∃ a u v, words = u ++ v ∧ R a u ∧ S a b v := by
  intro c b c'
  rw [run_bind_ok]
  constructor
  · rintro ⟨a, d, ha, hb⟩
    obtain ⟨u, hu, hpu, rfl⟩ := (hp ..).mp ha
    obtain ⟨v, hv, hpv, rfl⟩ := (hf a ..).mp hb
    rw [Cursor.rest_skip] at hpv
    refine ⟨u ++ v, ⟨a, u, v, rfl, hu, hv⟩, prefix_append_iff.mpr ⟨hpu, hpv⟩, ?_⟩
    rw [Cursor.skip_skip, List.length_append]
  · rintro ⟨words, ⟨a, u, v, rfl, hu, hv⟩, hw, rfl⟩
    obtain ⟨hpu, hpv⟩ := prefix_append_iff.mp hw
    refine ⟨a, c.skip u.length, (hp ..).mpr ⟨u, hu, hpu, rfl⟩, (hf a ..).mpr ⟨v, hv, ?_, ?_⟩⟩
    · rwa [Cursor.rest_skip]
    · rw [Cursor.skip_skip, List.length_append]

theorem Reads.pure (a : α) : Reads (pure a : Parser ε ω α) fun b words => b = a ∧ words = [] := by
  intro c b c'
  constructor
  · intro h
    obtain ⟨rfl, rfl⟩ := EStateM.Result.ok.inj h
    exact ⟨[], ⟨rfl, rfl⟩, List.nil_prefix, rfl⟩
  · rintro ⟨_, ⟨rfl, rfl⟩, _, rfl⟩
    rfl

theorem Reads.throw (e : ε) : Reads (throw e : Parser ε ω α) fun _ _ => False := by
  intro c b c'
  constructor
  · intro h
    cases h
  · rintro ⟨_, h, _⟩
    exact h.elim

theorem Reads.congr {p : Parser ε ω α} {R S : α → List ω → Prop} (hp : Reads p R)
    (h : ∀ a words, R a words ↔ S a words) : Reads p S := by
  intro c a c'
  rw [hp]
  simp only [h]

/-- A parser that leaves nothing was given words in the relation. -/
theorem Reads.whole {p : Parser ε ω α} {R : α → List ω → Prop} (hp : Reads p R)
    {arguments : List ω} {a : α} :
    (∃ c, p.run ⟨arguments, 0⟩ = .ok a c ∧ c.rest = []) ↔ R a arguments := by
  have hrest : (⟨arguments, 0⟩ : Cursor ω).rest = arguments := List.drop_zero
  constructor
  · rintro ⟨c, h, hc⟩
    obtain ⟨words, hw, hpre, rfl⟩ := (hp ..).mp h
    rw [Cursor.rest_skip, hrest] at hc
    rw [hrest] at hpre
    obtain ⟨t, rfl⟩ := hpre
    rw [List.drop_left] at hc
    rw [hc, List.append_nil]
    exact hw
  · intro h
    refine ⟨(⟨arguments, 0⟩ : Cursor ω).skip arguments.length, (hp ..).mpr ⟨arguments, h, ?_, rfl⟩,
      ?_⟩
    · rw [hrest]
    · rw [Cursor.rest_skip, hrest, List.drop_length]

/-- The index stays within the arguments, which stay the same, whether the parser succeeds
or fails. -/
def Stays (p : Parser ε ω α) : Prop :=
  ∀ c : Cursor ω, c.index ≤ c.arguments.length →
    match p.run c with
    | .ok _ c' => c'.arguments = c.arguments ∧ c'.index ≤ c.arguments.length
    | .error _ c' => c'.arguments = c.arguments ∧ c'.index ≤ c.arguments.length

theorem Stays.bind {p : Parser ε ω α} {f : α → Parser ε ω β} (hp : Stays p)
    (hf : ∀ a, Stays (f a)) : Stays (p >>= f) := by
  intro c hc
  have h := hp c hc
  change match (EStateM.bind p f) c with
    | .ok _ c' => _
    | .error _ c' => _
  unfold EStateM.bind
  change match p c with
    | .ok _ c' => _
    | .error _ c' => _ at h
  cases hpc : p c with
  | ok a d =>
    rw [hpc] at h
    obtain ⟨ha, hi⟩ := h
    have hd := hf a d (by rwa [ha])
    rw [ha] at hd
    exact hd
  | error e d =>
    rw [hpc] at h
    exact h

theorem Stays.pure (a : α) : Stays (pure a : Parser ε ω α) := fun _ hc => ⟨rfl, hc⟩

theorem Stays.throw (e : ε) : Stays (throw e : Parser ε ω α) := fun _ hc => ⟨rfl, hc⟩

end PersonaMessage.CursorParser
