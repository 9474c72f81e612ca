import Mathlib.Tactic

/-! `std::unordered_map` as a partial function. Iteration order is left out: the
code under the model only looks up, inserts and assigns. -/
namespace Sync532

def UMap (κ ν : Type*) := κ → Option ν

namespace UMap
variable {κ ν : Type*}

def empty : UMap κ ν := fun _ => none

def find (m : UMap κ ν) (k : κ) : Option ν := m k

@[simp] theorem find_empty (k : κ) : (empty : UMap κ ν).find k = none := rfl

variable [DecidableEq κ]

/-- `m[k] = v`. -/
def set (m : UMap κ ν) (k : κ) (v : ν) : UMap κ ν := fun k' => if k' = k then some v else m k'

/-- `m[k]` as a value: an absent key is first inserted with the default. -/
def index (m : UMap κ ν) (k : κ) (default : ν) : UMap κ ν × ν :=
  match m.find k with
  | some v => (m, v)
  | none => (m.set k default, default)

@[simp] theorem find_set_self (m : UMap κ ν) (k : κ) (v : ν) : (m.set k v).find k = some v :=
  if_pos rfl

theorem find_set_of_ne (m : UMap κ ν) {k k' : κ} (v : ν) (h : k' ≠ k) :
    (m.set k v).find k' = m.find k' := if_neg h

theorem index_of_find {m : UMap κ ν} {k : κ} {v : ν} (h : m.find k = some v) (d : ν) :
    m.index k d = (m, v) := by
  simp only [index, h]

/-- The map numbers the entries of a list from zero. -/
def Numbers (m : UMap κ ℕ) (l : List κ) : Prop := ∀ k i, m.find k = some i ↔ l[i]? = some k

omit [DecidableEq κ] in
theorem Numbers.isSome_iff {m : UMap κ ℕ} {l : List κ} (h : m.Numbers l) (k : κ) :
    (m.find k).isSome ↔ k ∈ l := by
  rw [Option.isSome_iff_exists, List.mem_iff_getElem?]
  exact exists_congr (h k)

omit [DecidableEq κ] in
theorem Numbers.empty : (UMap.empty : UMap κ ℕ).Numbers [] := fun k i => by simp

theorem Numbers.set {m : UMap κ ℕ} {l : List κ} (h : m.Numbers l) {k : κ} (hk : k ∉ l) :
    (m.set k l.length).Numbers (l ++ [k]) := by
  intro k' i
  rw [List.getElem?_append]
  -- the new key stands at the end, every other key where it was
  by_cases he : k' = k
  · subst he
    rw [find_set_self]
    constructor
    · intro hi
      obtain rfl : l.length = i := Option.some.inj hi
      simp
    · intro hi
      split_ifs at hi with hlt
      · exact absurd (List.mem_of_getElem? hi) hk
      · obtain ⟨hlen, -⟩ := List.getElem?_eq_some_iff.mp hi
        rw [List.length_singleton] at hlen
        exact congrArg some (by omega)
  · rw [find_set_of_ne _ _ he, h k' i]
    constructor
    · intro hi
      rw [if_pos (List.getElem?_eq_some_iff.mp hi).1]
      exact hi
    · intro hi
      split_ifs at hi with hlt
      · exact hi
      · obtain ⟨_, rfl⟩ := List.getElem?_eq_some_iff.mp hi
        exact absurd (List.getElem_singleton _) he

end UMap

end Sync532
