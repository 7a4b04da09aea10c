import Mathlib.Data.Finset.Card
import Mathlib.Data.List.Nodup
import Isaforge.Fresh

/-!
# Fresh names — what a supply gives

`Supply.take` lists the names that a supply gives one after the other from a state, and
`Supply.after` is the state it is left in.

The supply of `Fresh` searches for the next free name and limits its tries.  `Fresh.Search` is the
search without a limit, with the number of its tries.

* `Fresh.exists_search`, `Fresh.Search.tries_le`: it ends, and passes each taken name once at most,
  as names of different numbers differ.  So the limit does not matter
  (`Fresh.exists_search_nextFree`).
* `Fresh.exists_take_eq`: the names given are the next ones in order, without those that are taken.
  Hence they are distinct, and not taken (`Fresh.nodup_take`, `Fresh.notMem_of_mem_take`).
-/

namespace Isaforge

/-! ### Supplies -/

namespace Supply

variable {σ : Type}

/-- The next `k` names. -/
def take (next : Supply σ) : σ → Nat → List String
  | _, 0 => []
  | s, k + 1 => (next s).1 :: take next (next s).2 k

/-- The state after the next `k` names. -/
def after (next : Supply σ) : σ → Nat → σ
  | s, 0 => s
  | s, k + 1 => after next (next s).2 k

variable (next : Supply σ)

theorem length_take (s : σ) (k : Nat) : (next.take s k).length = k := by
  induction k generalizing s with
  | zero => rfl
  | succ k ih => rw [take, List.length_cons, ih]

theorem take_add (s : σ) (j k : Nat) :
    next.take s (j + k) = next.take s j ++ next.take (next.after s j) k := by
  induction j generalizing s with
  | zero => rw [Nat.zero_add, take, after, List.nil_append]
  | succ j ih => rw [Nat.succ_add, take, take, after, ih, List.cons_append]

theorem after_add (s : σ) (j k : Nat) : next.after s (j + k) = next.after (next.after s j) k := by
  induction j generalizing s with
  | zero => rw [Nat.zero_add, after]
  | succ j ih => rw [Nat.succ_add, after, after, ih]

/-- From any state the supply gives distinct names, none of them to be avoided. -/
def Avoids (avoid : List String) : Prop :=
  ∀ s k, (next.take s k).Nodup ∧ ∀ n ∈ next.take s k, n ∉ avoid

end Supply

namespace Fresh

/-! ### Names and numbers -/

theorem nameOf_injective : Function.Injective nameOf := by
  intro m n h
  have hdigits : Nat.toDigits 10 m = Nat.toDigits 10 n := by
    rw [← Nat.toList_repr, ← Nat.toList_repr]
    exact congrArg String.toList ((String.append_right_inj "tmp").mp h)
  rw [← Nat.ofDigitChars_ten_toDigits (n := m), hdigits, Nat.ofDigitChars_ten_toDigits]

theorem head?_nameOf (n : Nat) : (nameOf n).toList.head? = some 't' := by
  simp [nameOf]

/-! ### Free names -/

variable {taken : List String} {n tries number : Nat}

/-- The numbers of the free names among the next `k` ones. -/
def freeNumbers (taken : List String) (n k : Nat) : List Nat :=
  (List.range' (n + 1) k).filter fun m => nameOf m ∉ taken

theorem freeNumbers_add (taken : List String) (n j k : Nat) :
    freeNumbers taken n (j + k) = freeNumbers taken n j ++ freeNumbers taken (n + j) k := by
  rw [freeNumbers, freeNumbers, freeNumbers, Nat.add_right_comm, ← List.filter_append,
    List.range'_append_1]

theorem freeNumbers_of_taken (h : nameOf (n + 1) ∈ taken) (k : Nat) :
    freeNumbers taken n (k + 1) = freeNumbers taken (n + 1) k := by
  rw [freeNumbers, List.range'_succ, List.filter_cons_of_neg (by simpa using h), freeNumbers]

/-- Names of different numbers differ, so no more of them are taken than there are taken names. -/
theorem length_le_of_taken {ms : List Nat} (hnd : ms.Nodup) (h : ∀ m ∈ ms, nameOf m ∈ taken) :
    ms.length ≤ taken.toFinset.card := by
  have hsub : (ms.map nameOf).toFinset ⊆ taken.toFinset := by
    intro name hname
    obtain ⟨m, hm, rfl⟩ := List.mem_map.mp (List.mem_toFinset.mp hname)
    exact List.mem_toFinset.mpr (h m hm)
  rw [← List.length_map nameOf, ← List.toFinset_card_of_nodup (hnd.map nameOf_injective)]
  exact Finset.card_le_card hsub

/-- Of the next `k` names all are free but as many as there are taken names, at most. -/
theorem le_length_freeNumbers (taken : List String) (n k : Nat) :
    k ≤ (freeNumbers taken n k).length + taken.toFinset.card := by
  have htaken : ((List.range' (n + 1) k).filter fun m => !decide (nameOf m ∉ taken)).length ≤
      taken.toFinset.card :=
    length_le_of_taken (List.Nodup.filter _ List.nodup_range') fun m hm => by
      simpa using (List.mem_filter.mp hm).2
  calc k
    _ = (List.range' (n + 1) k).length := List.length_range'.symm
    _ = (freeNumbers taken n k).length + _ := List.length_eq_length_filter_add _
    _ ≤ (freeNumbers taken n k).length + taken.toFinset.card := Nat.add_le_add_left htaken _

/-! ### The search for a free name -/

/-- The search for a free name with no limit on its tries: from number `n` on it tries one name
after the other, `tries` in all, and ends at that of `number`, which is free. -/
inductive Search (taken : List String) : (n tries number : Nat) → Prop where
  | free {n : Nat} (h : nameOf (n + 1) ∉ taken) : Search taken n 1 (n + 1)
  | next {n tries number : Nat} (h : nameOf (n + 1) ∈ taken)
      (rest : Search taken (n + 1) tries number) : Search taken n (tries + 1) number

namespace Search

theorem number_eq (h : Search taken n tries number) : number = n + tries := by
  induction h with
  | free _ => rfl
  | next _ _ ih => rw [ih, Nat.add_right_comm, Nat.add_assoc]

/-- A search goes one way only. -/
theorem unique {tries' number' : Nat} (h : Search taken n tries number)
    (h' : Search taken n tries' number') : tries' = tries ∧ number' = number := by
  induction h generalizing tries' with
  | free hfree =>
      cases h' with
      | free _ => exact ⟨rfl, rfl⟩
      | next htaken _ => exact absurd htaken hfree
  | next htaken _ ih =>
      cases h' with
      | free hfree => exact absurd htaken hfree
      | next _ rest =>
          obtain ⟨rfl, rfl⟩ := ih rest
          exact ⟨rfl, rfl⟩

/-- Of the names that a search tries the last one is free, and no other. -/
theorem freeNumbers_eq (h : Search taken n tries number) :
    freeNumbers taken n tries = [number] := by
  induction h with
  | free hfree => exact List.filter_cons_of_pos (decide_eq_true hfree)
  | next htaken _ ih => rw [freeNumbers_of_taken htaken, ih]

/-- **The search ends soon**: it passes each taken name once at most. -/
theorem tries_le (h : Search taken n tries number) : tries ≤ taken.toFinset.card + 1 := by
  have hle := le_length_freeNumbers taken n tries
  rwa [h.freeNumbers_eq, List.length_singleton, Nat.add_comm] at hle

end Search

/-- Unless the next `k` names are all taken, the search ends. -/
theorem exists_search_or_taken (taken : List String) (k n : Nat) :
    (∃ tries number, Search taken n tries number) ∨ freeNumbers taken n k = [] := by
  induction k generalizing n with
  | zero => exact .inr rfl
  | succ k ih =>
      by_cases htaken : nameOf (n + 1) ∈ taken
      · refine (ih (n + 1)).imp ?_ fun hrest => ?_
        · rintro ⟨tries, number, h⟩
          exact ⟨tries + 1, number, .next htaken h⟩
        · rw [freeNumbers_of_taken htaken, hrest]
      · exact .inl ⟨1, n + 1, .free htaken⟩

/-- **The search ends**, from whatever number. -/
theorem exists_search (taken : List String) (n : Nat) :
    ∃ tries number, Search taken n tries number := by
  rcases exists_search_or_taken taken (taken.toFinset.card + 1) n with h | hnone
  · exact h
  · have hle := le_length_freeNumbers taken n (taken.toFinset.card + 1)
    rw [hnone, List.length_nil] at hle
    omega

/-- The limited search ends at the same number, also when it lacks the last try: it gives the number
after its tries without looking at the name. -/
theorem nextFree_eq_of_search (h : Search taken n tries number) {limit : Nat}
    (hle : tries ≤ limit + 1) : nextFree taken limit n = number := by
  induction h generalizing limit with
  | free hfree =>
      cases limit with
      | zero => rfl
      | succ limit => rw [nextFree, if_neg hfree]
  | next htaken rest ih =>
      cases limit with
      | zero =>
          cases rest with
          | free _ | next _ _ => omega
      | succ limit =>
          rw [nextFree, if_pos htaken]
          exact ih (by omega)

/-- **The next free number** is found by a search. -/
theorem exists_search_nextFree (taken : List String) (n : Nat) :
    ∃ tries, Search taken n tries (nextFree taken taken.length n) := by
  obtain ⟨tries, number, h⟩ := exists_search taken n
  have hle : tries ≤ taken.length + 1 :=
    h.tries_le.trans (Nat.add_le_add_right taken.toFinset_card_le 1)
  exact ⟨tries, nextFree_eq_of_search h hle ▸ h⟩

/-! ### The names of the supply -/

/-- The numbers of the next `k` names. -/
def numbers (taken : List String) : Nat → Nat → List Nat
  | _, 0 => []
  | n, k + 1 =>
    nextFree taken taken.length n :: numbers taken (nextFree taken taken.length n) k

theorem take_eq_map (taken : List String) (n k : Nat) :
    (supply taken).take n k = (numbers taken n k).map nameOf := by
  induction k generalizing n with
  | zero => rfl
  | succ k ih =>
      rw [Supply.take, numbers, List.map_cons, ← ih]
      rfl

/-- One search after the other leaves out no free number, and tries as many names as the number
grows. -/
theorem exists_numbers_eq (taken : List String) (n k : Nat) :
    ∃ tried, (supply taken).after n k = n + tried ∧
      numbers taken n k = freeNumbers taken n tried := by
  induction k generalizing n with
  | zero => exact ⟨0, rfl, rfl⟩
  | succ k ih =>
      obtain ⟨tries, hsearch⟩ := exists_search_nextFree taken n
      obtain ⟨tried, hafter, hnumbers⟩ := ih (nextFree taken taken.length n)
      refine ⟨tries + tried, ?_, ?_⟩
      · have hstate : ((supply taken) n).2 = nextFree taken taken.length n := rfl
        rw [Supply.after, hstate, hafter, hsearch.number_eq, Nat.add_assoc]
      · rw [numbers, hnumbers, freeNumbers_add, hsearch.freeNumbers_eq, ← hsearch.number_eq]
        rfl

/-- **The names given** are the next ones in order, without those that are taken. -/
theorem exists_take_eq (taken : List String) (n k : Nat) :
    ∃ tried ≤ k + taken.toFinset.card, (supply taken).after n k = n + tried ∧
      (supply taken).take n k =
        ((List.range' (n + 1) tried).map nameOf).filter (· ∉ taken) := by
  obtain ⟨tried, hafter, hnumbers⟩ := exists_numbers_eq taken n k
  have htake : (supply taken).take n k = (freeNumbers taken n tried).map nameOf := by
    rw [take_eq_map, hnumbers]
  refine ⟨tried, ?_, hafter, ?_⟩
  · have hlength : k = (freeNumbers taken n tried).length := by
      rw [← (supply taken).length_take n k, htake, List.length_map]
    rw [hlength]
    exact le_length_freeNumbers taken n tried
  · rw [htake, freeNumbers, List.filter_map]
    rfl

/-- The names given are distinct. -/
theorem nodup_take (taken : List String) (n k : Nat) : ((supply taken).take n k).Nodup := by
  obtain ⟨tried, -, -, htake⟩ := exists_take_eq taken n k
  rw [htake]
  exact (List.Nodup.map nameOf_injective List.nodup_range').filter _

/-- No name given is taken. -/
theorem notMem_of_mem_take {n k : Nat} {name : String} (h : name ∈ (supply taken).take n k) :
    name ∉ taken := by
  obtain ⟨tried, -, -, htake⟩ := exists_take_eq taken n k
  rw [htake, List.mem_filter] at h
  exact of_decide_eq_true h.2

theorem head?_of_mem_take {n k : Nat} {name : String} (h : name ∈ (supply taken).take n k) :
    name.toList.head? = some 't' := by
  rw [take_eq_map, List.mem_map] at h
  obtain ⟨m, -, rfl⟩ := h
  exact head?_nameOf m

end Fresh

end Isaforge
