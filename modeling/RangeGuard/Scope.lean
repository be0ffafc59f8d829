/-!
# Scopes

A scope lists the integer variables that an analysis tracks. The order fixes the position of each
variable, and no name occurs twice: `Scope` carries the proof. A box is a list of intervals in that
order, so `Scope.position?` is what ties the two together.

Scopes are made from declarations by `Scope.ofNames`, which keeps the first occurrence of each name.
Distinctness is kept step by step (`Scope.addName`), and the names of the result are those of the
list.
-/

namespace RangeGuard

/-- Distinct variable names in a fixed order. -/
structure Scope where
  /-- The names in order. -/
  names : List String
  /-- No name occurs twice. -/
  nodup : names.Nodup
deriving DecidableEq

namespace Scope

/-! ## Building a scope -/

/-- Appends a name unless it is there already. -/
def addName (names : List String) (x : String) : List String :=
  if x ∈ names then names else names ++ [x]

private theorem nodup_addName {names : List String} (h : names.Nodup) (x : String) :
    (addName names x).Nodup := by
  unfold addName
  split
  · exact h
  · rename_i hx
    -- the appended name is a new one
    refine List.nodup_append.mpr ⟨h, by simp, ?_⟩
    intro a ha b hb hab
    simp only [List.mem_singleton] at hb
    exact hx (hb ▸ hab ▸ ha)

private theorem nodup_foldl_addName (xs : List String) {names : List String} (h : names.Nodup) :
    (xs.foldl addName names).Nodup := by
  induction xs generalizing names with
  | nil => exact h
  | cons x xs ih => exact ih (nodup_addName h x)

/-- The names of a list, each at the place of its first occurrence. -/
def ofNames (xs : List String) : Scope :=
  ⟨xs.foldl addName [], nodup_foldl_addName xs List.nodup_nil⟩

private theorem mem_addName {names : List String} {x y : String} :
    x ∈ addName names y ↔ x ∈ names ∨ x = y := by
  unfold addName
  split
  · constructor
    · exact .inl
    · rintro (hx | rfl) <;> assumption
  · simp

private theorem mem_foldl_addName {xs names : List String} {x : String} :
    x ∈ xs.foldl addName names ↔ x ∈ names ∨ x ∈ xs := by
  induction xs generalizing names with
  | nil => simp
  | cons y xs ih => rw [List.foldl_cons, ih, mem_addName, List.mem_cons, or_assoc]

/-- A scope made from a list has exactly the names of the list. -/
theorem mem_names_ofNames {xs : List String} {x : String} : x ∈ (ofNames xs).names ↔ x ∈ xs := by
  simp [ofNames, mem_foldl_addName]

/-! ## Looking up names -/

/-- The number of names. -/
def size (s : Scope) : Nat := s.names.length

/-- The position of a name, counted from zero. -/
def position? (s : Scope) (x : String) : Option Nat := s.names.idxOf? x

/-- The name is in the scope. -/
def contains (s : Scope) (x : String) : Bool := decide (x ∈ s.names)

/-- The written form. -/
def text (s : Scope) : String := "\x7b" ++ ", ".intercalate s.names ++ "\x7d"

instance : ToString Scope := ⟨text⟩

end Scope

end RangeGuard
