import Mathlib.Logic.Function.Basic

/-! A sequence of stores through an address translation. An address that the translation does not map
stops the sequence. A place holds the value of the last store to it, or its old one. -/

namespace Stores

open Function

variable {A P V : Type} {phys : A → Option P} {m m' : P → V} {a : A} {p : P} {v : V}
  {w : A × V} {ws ws' : List (A × V)}

/-- No store goes to `p`. -/
def Untouched (phys : A → Option P) (ws : List (A × V)) (p : P) : Prop := ∀ w ∈ ws, phys w.1 ≠ some p

/-- The last store to `p` is one of `v`. -/
def Last (phys : A → Option P) (ws : List (A × V)) (p : P) (v : V) : Prop :=
  ∃ earlier a later, ws = earlier ++ (a, v) :: later ∧ phys a = some p ∧ Untouched phys later p

theorem Last.cons (h : Last phys ws p v) : Last phys (w :: ws) p v := by
  obtain ⟨earlier, a, later, rfl, ha, hlater⟩ := h
  exact ⟨w :: earlier, a, later, rfl, ha, hlater⟩

theorem last_or_untouched (phys : A → Option P) (ws : List (A × V)) (p : P) :
    (∃ v, Last phys ws p v) ∨ Untouched phys ws p := by
  induction ws with
  | nil => exact .inr fun w hw => absurd hw List.not_mem_nil
  | cons w ws ih =>
      rcases ih with ⟨v, hlast⟩ | hun
      · exact .inl ⟨v, hlast.cons⟩
      · by_cases hp : phys w.1 = some p
        · exact .inl ⟨w.2, [], w.1, ws, rfl, hp, hun⟩
        · exact .inr (List.forall_mem_cons.2 ⟨hp, hun⟩)

variable [DecidableEq P]

def store (phys : A → Option P) (m : P → V) (a : A) (v : V) : Option (P → V) :=
  (phys a).map fun p => update m p v

def storeAll (phys : A → Option P) : List (A × V) → (P → V) → Option (P → V)
  | [], m => some m
  | w :: ws, m => (store phys m w.1 w.2).bind (storeAll phys ws)

theorem store_of (h : phys a = some p) : store phys m a v = some (update m p v) := by rw [store, h]; rfl

theorem store_eq_some (h : store phys m a v = some m') : ∃ p, phys a = some p ∧ m' = update m p v := by
  cases hp : phys a with
  | none => rw [store, hp] at h; cases h
  | some p => rw [store_of hp] at h; exact ⟨p, rfl, (Option.some.inj h).symm⟩

theorem storeAll_append (ws ws' : List (A × V)) (m : P → V) :
    storeAll phys (ws ++ ws') m = (storeAll phys ws m).bind (storeAll phys ws') := by
  induction ws generalizing m with
  | nil => rfl
  | cons w ws ih =>
      rw [List.cons_append, storeAll, storeAll, Option.bind_assoc]
      exact congrArg _ (funext fun m => ih m)

theorem storeAll_cons (h : storeAll phys (w :: ws) m = some m') :
    ∃ p, phys w.1 = some p ∧ storeAll phys ws (update m p w.2) = some m' := by
  obtain ⟨m₁, hstore, hrest⟩ := Option.bind_eq_some_iff.1 h
  obtain ⟨p, hp, rfl⟩ := store_eq_some hstore
  exact ⟨p, hp, hrest⟩

/-- The sequence ends when every address is mapped. -/
theorem storeAll_ends : (∃ m', storeAll phys ws m = some m') ↔ ∀ w ∈ ws, ∃ p, phys w.1 = some p := by
  induction ws generalizing m with
  | nil => exact ⟨fun _ w hw => absurd hw List.not_mem_nil, fun _ => ⟨m, rfl⟩⟩
  | cons w ws ih =>
      constructor
      · rintro ⟨m', h⟩
        obtain ⟨p, hp, hrest⟩ := storeAll_cons h
        exact List.forall_mem_cons.2 ⟨⟨p, hp⟩, ih.1 ⟨m', hrest⟩⟩
      · intro h
        obtain ⟨⟨p, hp⟩, hrest⟩ := List.forall_mem_cons.1 h
        rw [storeAll, store_of hp]
        exact ih.2 hrest

theorem storeAll_untouched (h : storeAll phys ws m = some m') (hp : Untouched phys ws p) : m' p = m p := by
  induction ws generalizing m with
  | nil => rw [Option.some.inj h]
  | cons w ws ih =>
      obtain ⟨q, hq, hrest⟩ := storeAll_cons h
      obtain ⟨hne, hp⟩ := List.forall_mem_cons.1 hp
      rw [ih hrest hp, update_of_ne]
      rintro rfl
      exact hne hq

theorem storeAll_last (h : storeAll phys ws m = some m') (hlast : Last phys ws p v) : m' p = v := by
  obtain ⟨earlier, a, later, rfl, ha, hlater⟩ := hlast
  rw [storeAll_append] at h
  obtain ⟨m₁, -, h⟩ := Option.bind_eq_some_iff.1 h
  obtain ⟨q, hq, hrest⟩ := storeAll_cons h
  cases ha.symm.trans hq
  rw [storeAll_untouched hrest hlater, update_self]

/-- Memories that agree on the places in `S` still do after the same stores. -/
theorem storeAll_agree {S : P → Prop} {m₁ : P → V} (h : ∀ p, S p → m p = m₁ p) :
    Option.Rel (fun m m₁ => ∀ p, S p → m p = m₁ p) (storeAll phys ws m) (storeAll phys ws m₁) := by
  induction ws generalizing m m₁ with
  | nil => exact .some h
  | cons w ws ih =>
      rw [storeAll, storeAll]
      cases hp : phys w.1 with
      | none =>
          rw [store, store, hp]
          exact .none
      | some p =>
          rw [store_of hp, store_of hp]
          refine ih fun q hq => ?_
          by_cases he : q = p
          · rw [he, update_self, update_self]
          · rw [update_of_ne he, update_of_ne he, h q hq]

/-- Two computations that agree step by step. -/
theorem rel_bind {α β γ δ : Type} {R : α → β → Prop} {S : γ → δ → Prop} {x : Option α} {y : Option β}
    {f : α → Option γ} {g : β → Option δ} (h : Option.Rel R x y) (hfg : ∀ a b, R a b → Option.Rel S (f a) (g b)) :
    Option.Rel S (x.bind f) (y.bind g) := by
  cases h with
  | some hab => exact hfg _ _ hab
  | none => exact .none

/-- What holds of the memory after the stores, from the last store or from the memory before. -/
theorem storeAll_iff (h : storeAll phys ws m = some m') :
    m' p = v ↔ (∀ u, Last phys ws p u → u = v) ∧ (Untouched phys ws p → m p = v) := by
  constructor
  · intro hv
    refine ⟨fun u hu => (storeAll_last h hu).symm.trans hv, fun hun => ?_⟩
    exact (storeAll_untouched h hun).symm.trans hv
  · rintro ⟨hlast, hold⟩
    rcases last_or_untouched phys ws p with ⟨u, hu⟩ | hun
    · exact (storeAll_last h hu).trans (hlast u hu)
    · exact (storeAll_untouched h hun).trans (hold hun)

end Stores
