import TuneLang.Expr

/-!
# The store

Names are bound to locations and the store holds a value at each location. Locations are numbered in the order in which they were
made and are never given up, so the store only grows, and two names bound to one location share what it holds.
-/

namespace TuneLang

/-- The values held, by location. -/
structure Store where
  cells : Array Value := #[]
  deriving DecidableEq, Repr

/-- The store without locations. -/
def Store.empty : Store := {}

/-- The location that is made next. -/
def Store.next (s : Store) : Loc := s.cells.size

/-- The store with one more location that holds a value. -/
def Store.push (s : Store) (v : Value) : Store := ⟨s.cells.push v⟩

/-- What a location holds. -/
def Store.get? (s : Store) (l : Loc) : Option Value := s.cells[l]?

/-- What a location holds; a location that was never made holds nothing. -/
def Store.get (s : Store) (l : Loc) : Value := (s.get? l).getD .nothing

/-- The store with another value at a location. -/
def Store.set (s : Store) (l : Loc) (v : Value) : Store := ⟨s.cells.setIfInBounds l v⟩

/-- A new location is counted. -/
theorem Store.next_push (s : Store) (v : Value) : (s.push v).next = s.next + 1 := Array.size_push v

/-- A new location comes after all others. -/
theorem Store.next_lt_push (s : Store) (v : Value) : s.next < (s.push v).next := by
  rw [Store.next_push]
  exact Nat.lt_succ_self _

/-- A new location holds its value, and every other location what it held. -/
theorem Store.get?_push (s : Store) (v : Value) (l : Loc) :
    (s.push v).get? l = if l = s.next then some v else s.get? l := Array.getElem?_push

/-- Changing a location makes none. -/
theorem Store.next_set (s : Store) (l : Loc) (v : Value) : (s.set l v).next = s.next := Array.size_setIfInBounds

/-- A location that is changed holds its new value, and every other location what it held. -/
theorem Store.get?_set (s : Store) (l k : Loc) (v : Value) :
    (s.set l v).get? k = if l = k then if l < s.next then some v else none else s.get? k := Array.getElem?_setIfInBounds

/-- A location that holds something was made. -/
theorem Store.lt_next_of_get? {s : Store} {l : Loc} {v : Value} (h : s.get? l = some v) : l < s.next :=
  (Array.getElem?_eq_some_iff.mp h).1

/-- A location that was made holds something. -/
theorem Store.get?_of_lt_next {s : Store} {l : Loc} (h : l < s.next) : s.get? l = some (s.get l) := by
  rw [Store.get, Store.get?, Array.getElem?_eq_getElem h, Option.getD_some]

/-- A value of a store with one more location is the new one at the new location, or was held before. -/
theorem Store.held_push {s : Store} {l : Loc} {u v : Value} (h : (s.push v).get? l = some u) :
    (l = s.next ∧ u = v) ∨ (l ≠ s.next ∧ s.get? l = some u) := by
  rw [Store.get?_push] at h
  split at h
  · rename_i hl
    exact Or.inl ⟨hl, (Option.some.inj h).symm⟩
  · rename_i hl
    exact Or.inr ⟨hl, h⟩

/-- A value of a store in which a location was changed is the new one at that location, or was held before. -/
theorem Store.held_set {s : Store} {k l : Loc} {u v : Value} (h : (s.set l v).get? k = some u) :
    (k = l ∧ u = v) ∨ (k ≠ l ∧ s.get? k = some u) := by
  rw [Store.get?_set] at h
  split at h
  · rename_i hl
    split at h
    · exact Or.inl ⟨hl.symm, (Option.some.inj h).symm⟩
    · cases h
  · rename_i hl
    exact Or.inr ⟨Ne.symm hl, h⟩

/-- Whether all values that a store holds have a property. -/
def Store.All (P : Value → Prop) (s : Store) : Prop := ∀ l v, s.get? l = some v → P v

theorem Store.all_empty (P : Value → Prop) : Store.empty.All P := by
  intro l v hv
  simp [Store.empty, Store.get?] at hv

/-- All values have a property still when one that has it gets a new location. -/
theorem Store.All.push {P : Value → Prop} {s : Store} {v : Value} (hs : s.All P) (hv : P v) : (s.push v).All P := by
  intro l u hu
  rcases Store.held_push hu with ⟨_, rfl⟩ | ⟨_, hu⟩
  · exact hv
  · exact hs l u hu

/-- All values have a property still when one that has it is put at a location. -/
theorem Store.All.set {P : Value → Prop} {s : Store} {l : Loc} {v : Value} (hs : s.All P) (hv : P v) : (s.set l v).All P := by
  intro k u hu
  rcases Store.held_set hu with ⟨_, rfl⟩ | ⟨_, hu⟩
  · exact hv
  · exact hs k u hu

/-- The location of a name's innermost binding. -/
def Env.find? (env : Env) (x : String) : Option Loc := env.lookup x

/-- The names of an environment with what they are bound to, innermost first. -/
def Env.listing (env : Env) (s : Store) : List (String × Value) := env.map (fun b => (b.1, s.get b.2))

end TuneLang
