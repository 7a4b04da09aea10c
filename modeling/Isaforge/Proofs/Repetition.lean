import Isaforge.Repetition
import Mathlib.Data.List.Nodup
import Mathlib.Order.WellFounded

/-!
# Repetition — what the searches for repeated elements find

* `firstRepeat?_eq_none_iff`: no element is found exactly when the list is free of repetitions
  and meets none of the elements seen before.
* `firstRepeat?_eq_some_iff`: the element found is the first that was met before.
* `firstRepeat?_eq_some_iff_first`: it is the one at the first place that repeats (`Repeats`).
* `mem_map_distinctBy`, `nodup_map_distinctBy`: the first elements of each key have the keys of all
  elements, each once.  So the distinct elements of a list are its elements, each once
  (`mem_distinct`, `nodup_distinct`).
* `distinct_filter`, `distinct_append`: the distinct elements of a part of a list, and of two lists.
* `exists_introduced`: the first elements of each key are those that are introduced (`Introduces`),
  in the order of their places.
* `findIdx?_key`, `find?_key_eq_some_iff`: where no key is repeated, the first element with the key
  of one is that one.
-/

namespace Isaforge

variable {α κ : Type}

theorem firstRepeat?_eq_none_iff [DecidableEq α] {seen xs : List α} :
    firstRepeat? seen xs = none ↔ xs.Nodup ∧ ∀ x ∈ xs, x ∉ seen := by
  induction xs generalizing seen with
  | nil => simp [firstRepeat?]
  | cons x xs ih =>
      rw [firstRepeat?, List.nodup_cons]
      by_cases hx : x ∈ seen
      · simp [hx]
      · rw [if_neg hx, ih]
        constructor
        · rintro ⟨hnd, hout⟩
          refine ⟨⟨fun h => hout x h List.mem_cons_self, hnd⟩, fun y hy hs => ?_⟩
          rcases List.mem_cons.mp hy with rfl | hy
          · exact hx hs
          · exact hout y hy (List.mem_cons_of_mem _ hs)
        · rintro ⟨⟨hnot, hnd⟩, hout⟩
          refine ⟨hnd, fun y hy hs => ?_⟩
          rcases List.mem_cons.mp hs with rfl | hs
          · exact hnot hy
          · exact hout y (List.mem_cons_of_mem _ hy) hs

theorem firstRepeat?_eq_some_iff [DecidableEq α] {seen xs : List α} {x : α} :
    firstRepeat? seen xs = some x ↔
      ∃ before after, xs = before ++ x :: after ∧ before.Nodup ∧ (∀ y ∈ before, y ∉ seen) ∧
        (x ∈ seen ∨ x ∈ before) := by
  induction xs generalizing seen with
  | nil => simp [firstRepeat?]
  | cons y ys ih =>
      rw [firstRepeat?]
      by_cases hy : y ∈ seen
      · rw [if_pos hy, Option.some.injEq]
        constructor
        · rintro rfl
          exact ⟨[], ys, rfl, List.nodup_nil, fun _ h => (nomatch h), .inl hy⟩
        · rintro ⟨before, after, hsplit, -, hnew, -⟩
          -- nothing stands before an element that was seen
          cases before with
          | nil => exact (List.cons.inj hsplit).1
          | cons z before =>
              obtain ⟨rfl, -⟩ := List.cons.inj hsplit
              exact absurd hy (hnew y List.mem_cons_self)
      · rw [if_neg hy, ih]
        constructor
        · rintro ⟨before, after, rfl, hnd, hnew, hx⟩
          have hout : y ∉ before := fun h => hnew y h List.mem_cons_self
          refine ⟨y :: before, after, rfl, List.nodup_cons.mpr ⟨hout, hnd⟩, ?_, ?_⟩
          · intro z hz hs
            rcases List.mem_cons.mp hz with rfl | hz
            · exact hy hs
            · exact hnew z hz (List.mem_cons_of_mem _ hs)
          · rw [List.mem_cons] at hx ⊢
            tauto
        · rintro ⟨before, after, hsplit, hnd, hnew, hx⟩
          cases before with
          | nil =>
              obtain ⟨rfl, -⟩ := List.cons.inj hsplit
              exact absurd (hx.resolve_right List.not_mem_nil) hy
          | cons z before =>
              obtain ⟨rfl, rfl⟩ := List.cons.inj hsplit
              obtain ⟨hout, hnd⟩ := List.nodup_cons.mp hnd
              refine ⟨before, after, rfl, hnd, ?_, ?_⟩
              · intro z hz hs
                rcases List.mem_cons.mp hs with rfl | hs
                · exact hout hz
                · exact hnew z (List.mem_cons_of_mem _ hz) hs
              · rw [List.mem_cons] at hx ⊢
                tauto

/-- The element at place `n` is in `seen`, or stands at a smaller place too. -/
def Repeats (seen xs : List α) (n : Nat) : Prop :=
  ∃ x, xs[n]? = some x ∧ (x ∈ seen ∨ x ∈ xs.take n)

theorem repeats_cons_zero {seen xs : List α} {x : α} : Repeats seen (x :: xs) 0 ↔ x ∈ seen := by
  simp [Repeats]

theorem repeats_cons_succ {seen xs : List α} {x : α} {n : Nat} :
    Repeats seen (x :: xs) (n + 1) ↔ Repeats (x :: seen) xs n := by
  simp only [Repeats, List.getElem?_cons_succ, List.take_succ_cons, List.mem_cons]
  exact exists_congr fun y => and_congr_right fun _ => by tauto

/-- The element found is the one at the first place that repeats. -/
theorem firstRepeat?_eq_some_iff_first [DecidableEq α] {seen xs : List α} {x : α} :
    firstRepeat? seen xs = some x ↔
      ∃ n, xs[n]? = some x ∧ Repeats seen xs n ∧ ∀ m < n, ¬ Repeats seen xs m := by
  induction xs generalizing seen with
  | nil => simp [firstRepeat?]
  | cons y ys ih =>
      rw [firstRepeat?]
      by_cases hy : y ∈ seen
      · rw [if_pos hy, Option.some.injEq]
        constructor
        · rintro rfl
          exact ⟨0, rfl, repeats_cons_zero.mpr hy, fun m hm => absurd hm m.not_lt_zero⟩
        · rintro ⟨n, hn, -, hleast⟩
          -- place 0 repeats already
          cases n with
          | zero => exact Option.some.inj hn
          | succ n => exact absurd (repeats_cons_zero.mpr hy) (hleast 0 n.succ_pos)
      · rw [if_neg hy, ih]
        constructor
        · rintro ⟨n, hn, hrepeats, hleast⟩
          refine ⟨n + 1, hn, repeats_cons_succ.mpr hrepeats, fun m hm => ?_⟩
          cases m with
          | zero => exact repeats_cons_zero.not.mpr hy
          | succ m => exact repeats_cons_succ.not.mpr (hleast m (Nat.lt_of_succ_lt_succ hm))
        · rintro ⟨n, hn, hrepeats, hleast⟩
          cases n with
          | zero => exact absurd (repeats_cons_zero.mp hrepeats) hy
          | succ n =>
              exact ⟨n, hn, repeats_cons_succ.mp hrepeats, fun m hm =>
                repeats_cons_succ.not.mp (hleast (m + 1) (Nat.succ_lt_succ hm))⟩

theorem exists_firstRepeat?_iff [DecidableEq α] {seen xs : List α} :
    (∃ x, firstRepeat? seen xs = some x) ↔ ∃ n, Repeats seen xs n := by
  constructor
  · rintro ⟨x, hx⟩
    obtain ⟨n, -, hn, -⟩ := firstRepeat?_eq_some_iff_first.mp hx
    exact ⟨n, hn⟩
  · intro h
    obtain ⟨n, hn, hleast⟩ := WellFounded.has_min Nat.lt_wfRel.wf {n | Repeats seen xs n} h
    obtain ⟨x, hx, -⟩ := id hn
    exact ⟨x, firstRepeat?_eq_some_iff_first.mpr ⟨n, hx, hn, fun m hm h => hleast m h hm⟩⟩

/-- Of the elements seen before, it only matters which they are. -/
theorem firstRepeat?_congr [DecidableEq α] {seen seen' xs : List α}
    (h : ∀ x, x ∈ seen ↔ x ∈ seen') : firstRepeat? seen xs = firstRepeat? seen' xs := by
  have hrepeats : Repeats seen xs = Repeats seen' xs := by
    funext n
    simp only [Repeats, h]
  refine Option.ext fun x => ?_
  rw [firstRepeat?_eq_some_iff_first, firstRepeat?_eq_some_iff_first, hrepeats]

theorem mem_of_mem_distinctBy [DecidableEq κ] {key : α → κ} {x : α} {xs : List α}
    (h : x ∈ distinctBy key xs) : x ∈ xs := by
  induction xs with
  | nil => exact h
  | cons y ys ih =>
      rw [distinctBy] at h
      rcases List.mem_cons.mp h with rfl | h
      · exact List.mem_cons_self
      · exact List.mem_cons_of_mem _ (ih (List.mem_of_mem_filter h))

/-- The keys of the first elements are those of all elements, each once. -/
theorem mem_map_distinctBy [DecidableEq κ] {key : α → κ} {k : κ} {xs : List α} :
    k ∈ (distinctBy key xs).map key ↔ k ∈ xs.map key := by
  induction xs with
  | nil => rfl
  | cons x xs ih =>
      rw [distinctBy, List.map_cons, List.mem_cons, List.map_cons, List.mem_cons, ← ih,
        List.mem_map, List.mem_map]
      by_cases hk : k = key x
      · simp [hk]
      · refine or_congr_right (exists_congr fun b => ?_)
        rw [List.mem_filter, decide_eq_true_iff]
        exact ⟨fun h => ⟨h.1.1, h.2⟩, fun h => ⟨⟨h.1, fun hb => hk (h.2 ▸ hb)⟩, h.2⟩⟩

theorem nodup_map_distinctBy [DecidableEq κ] (key : α → κ) (xs : List α) :
    ((distinctBy key xs).map key).Nodup := by
  induction xs with
  | nil => exact List.nodup_nil
  | cons x xs ih =>
      rw [distinctBy, List.map_cons, List.nodup_cons]
      refine ⟨fun h => ?_, ih.sublist (List.filter_sublist.map key)⟩
      obtain ⟨b, hb, hkey⟩ := List.mem_map.mp h
      simpa [hkey] using (List.mem_filter.mp hb).2

@[simp] theorem mem_distinct [DecidableEq α] {x : α} {xs : List α} : x ∈ distinct xs ↔ x ∈ xs := by
  have hkeys : x ∈ (distinctBy id xs).map id ↔ x ∈ xs.map id := mem_map_distinctBy
  rwa [List.map_id, List.map_id] at hkeys

theorem nodup_distinct [DecidableEq α] (xs : List α) : (distinct xs).Nodup := by
  have hkeys := nodup_map_distinctBy id xs
  rwa [List.map_id] at hkeys

/-- A list begins with the first element of a key, so putting that in front once more changes
nothing. -/
theorem distinctBy_head? [DecidableEq κ] (key : α → κ) (xs : List α) :
    distinctBy key (xs.head?.toList ++ xs) = distinctBy key xs := by
  cases xs with
  | nil => rfl
  | cons x xs =>
      have hx : distinctBy key (x :: xs) = x :: (distinctBy key xs).filter (key · ≠ key x) := rfl
      have hagain : distinctBy key (x :: x :: xs) =
          x :: (distinctBy key (x :: xs)).filter (key · ≠ key x) := rfl
      rw [List.head?_cons, Option.toList_some, List.singleton_append, hagain, hx,
        List.filter_cons_of_neg (by simp), List.filter_filter]
      simp only [Bool.and_self]

theorem distinct_cons [DecidableEq α] (x : α) (xs : List α) :
    distinct (x :: xs) = x :: (distinct xs).filter (· ≠ x) :=
  rfl

/-- The distinct elements of a part of a list stand in the order of the whole. -/
theorem distinct_filter [DecidableEq α] (p : α → Bool) (xs : List α) :
    distinct (xs.filter p) = (distinct xs).filter p := by
  induction xs with
  | nil => rfl
  | cons x xs ih =>
      by_cases hx : p x
      · rw [List.filter_cons_of_pos hx, distinct_cons, distinct_cons, ih,
          List.filter_cons_of_pos hx, List.filter_comm]
      · have hne : ∀ y, (p y && decide (y ≠ x)) = p y := by
          intro y
          by_cases hy : y = x
          · simp [hy, hx]
          · simp [hy]
        rw [List.filter_cons_of_neg hx, ih, distinct_cons, List.filter_cons_of_neg hx,
          List.filter_filter]
        simp only [hne]

/-- Of the elements of a second list those stay that the first does not have. -/
theorem distinct_append [DecidableEq α] (xs ys : List α) :
    distinct (xs ++ ys) = distinct xs ++ (distinct ys).filter (· ∉ xs) := by
  induction xs with
  | nil => simp [distinct, distinctBy]
  | cons x xs ih =>
      have hnot : ∀ y, (decide (y ≠ x) && decide (y ∉ xs)) = decide (y ∉ x :: xs) := by
        simp
      rw [List.cons_append, distinct_cons, distinct_cons, ih, List.filter_append,
        List.filter_filter, List.cons_append]
      simp only [hnot]

/-! ### First occurrences -/

section

variable {β : Type} {key : α → κ} {value? : β → Option α} {x : β} {xs : List β} {n : Nat} {a b : α}
  {pairs : List (Nat × α)}

/-- The element at place `n` has the value `a`, and none before it has a value of the same key. -/
def Introduces (key : α → κ) (value? : β → Option α) (xs : List β) (n : Nat) (a : α) : Prop :=
  (∃ x, xs[n]? = some x ∧ value? x = some a) ∧
    ∀ (m : Nat) (x : β) (b : α), m < n → xs[m]? = some x → value? x = some b → key b ≠ key a

theorem introduces_cons_zero : Introduces key value? (x :: xs) 0 a ↔ value? x = some a := by
  simp [Introduces]

theorem introduces_cons_succ :
    Introduces key value? (x :: xs) (n + 1) a ↔
      Introduces key value? xs n a ∧ ∀ b, value? x = some b → key b ≠ key a := by
  constructor
  · rintro ⟨hat, hbefore⟩
    exact ⟨⟨hat, fun m y b hm hy hb => hbefore (m + 1) y b (Nat.succ_lt_succ hm) hy hb⟩,
      fun b hb => hbefore 0 x b n.succ_pos rfl hb⟩
  · rintro ⟨⟨hat, hbefore⟩, hx⟩
    refine ⟨hat, fun m y b hm hy hb => ?_⟩
    cases m with
    | zero =>
        obtain rfl := Option.some.inj hy
        exact hx b hb
    | succ m => exact hbefore m y b (Nat.lt_of_succ_lt_succ hm) hy hb

/-- The values that are introduced, with their places, in the order of these. -/
structure Introduced (key : α → κ) (value? : β → Option α) (xs : List β)
    (pairs : List (Nat × α)) : Prop where
  ordered : pairs.Pairwise (·.1 < ·.1)
  mem_iff : ∀ n a, (n, a) ∈ pairs ↔ Introduces key value? xs n a

namespace Introduced

/-- The values with their places, when an element comes before. -/
def shift (pairs : List (Nat × α)) : List (Nat × α) :=
  pairs.map fun p => (p.1 + 1, p.2)

theorem mem_shift : (n, a) ∈ shift pairs ↔ ∃ m, n = m + 1 ∧ (m, a) ∈ pairs := by
  rw [shift, List.mem_map]
  constructor
  · rintro ⟨⟨m, b⟩, hp, hpair⟩
    cases hpair
    exact ⟨m, rfl, hp⟩
  · rintro ⟨m, rfl, hp⟩
    exact ⟨(m, a), hp, rfl⟩

theorem ordered_shift (h : pairs.Pairwise (·.1 < ·.1)) : (shift pairs).Pairwise (·.1 < ·.1) :=
  List.pairwise_map.mpr (h.imp Nat.succ_lt_succ)

/-- An element without a value introduces nothing. -/
theorem cons_none (h : Introduced key value? xs pairs) (hx : value? x = none) :
    Introduced key value? (x :: xs) (shift pairs) where
  ordered := ordered_shift h.ordered
  mem_iff := by
    intro n a
    rw [mem_shift]
    cases n with
    | zero => simp [introduces_cons_zero, hx]
    | succ n => simp [introduces_cons_succ, hx, h.mem_iff]

/-- A value that comes before all others is introduced, and the others of its key are not. -/
theorem cons_some [DecidableEq κ] (h : Introduced key value? xs pairs) (hx : value? x = some b) :
    Introduced key value? (x :: xs) ((0, b) :: (shift pairs).filter (key ·.2 ≠ key b)) where
  ordered := by
    refine List.pairwise_cons.mpr ⟨fun p hp => ?_, (ordered_shift h.ordered).filter _⟩
    obtain ⟨m, hm, -⟩ := mem_shift.mp (List.mem_of_mem_filter hp)
    exact hm ▸ m.succ_pos
  mem_iff := by
    intro n a
    rw [List.mem_cons, List.mem_filter, mem_shift, decide_eq_true_iff]
    cases n with
    | zero => simp [introduces_cons_zero, hx, @eq_comm _ a b]
    | succ n => simp [introduces_cons_succ, hx, h.mem_iff, @ne_comm _ (key a)]

end Introduced

/-- The first elements of each key are the values that are introduced. -/
theorem exists_introduced [DecidableEq κ] (key : α → κ) (value? : β → Option α) (xs : List β) :
    ∃ pairs, Introduced key value? xs pairs ∧
      pairs.map (·.2) = distinctBy key (xs.filterMap value?) := by
  induction xs with
  | nil => exact ⟨[], ⟨List.Pairwise.nil, by simp [Introduces]⟩, rfl⟩
  | cons x xs ih =>
      obtain ⟨pairs, hpairs, hvalues⟩ := ih
      have hshift : (Introduced.shift pairs).map (·.2) = distinctBy key (xs.filterMap value?) := by
        rw [Introduced.shift, List.map_map, ← hvalues]
        rfl
      cases hx : value? x with
      | none => exact ⟨_, hpairs.cons_none hx, by rw [List.filterMap_cons_none hx, hshift]⟩
      | some b =>
          refine ⟨_, hpairs.cons_some hx, ?_⟩
          rw [List.filterMap_cons_some hx, distinctBy, ← hshift, List.filter_map]
          rfl

end

/-! ### Keys without repetitions -/

/-- Where no key is repeated, a key says at which place its element is. -/
theorem place_eq_of_key_eq {key : α → κ} {xs : List α} {m n : Nat} {x y : α}
    (h : (xs.map key).Nodup) (hx : xs[m]? = some x) (hy : xs[n]? = some y) (hkey : key x = key y) :
    m = n := by
  have hsame : (xs.map key)[m]? = (xs.map key)[n]? := by
    rw [List.getElem?_map, List.getElem?_map, hx, hy, Option.map_some, Option.map_some, hkey]
  have hlt : m < (xs.map key).length := by
    rw [List.length_map]
    exact (List.getElem?_eq_some_iff.mp hx).1
  exact (List.getElem?_inj hlt h).mp hsame

theorem findIdx?_key [DecidableEq κ] {key : α → κ} {xs : List α} {n : Nat} {x : α}
    (h : (xs.map key).Nodup) (hx : xs[n]? = some x) :
    xs.findIdx? (fun y => key y = key x) = some n := by
  obtain ⟨hn, rfl⟩ := List.getElem?_eq_some_iff.mp hx
  refine List.findIdx?_eq_some_iff_getElem.mpr ⟨hn, by simp, fun k hk heq => ?_⟩
  -- an element that stands before has another key
  have hlt : k < xs.length := Nat.lt_trans hk hn
  exact Nat.ne_of_lt hk
    (place_eq_of_key_eq h (List.getElem?_eq_getElem hlt) hx (of_decide_eq_true heq))

theorem find?_key_eq_some_iff [DecidableEq κ] {key : α → κ} {xs : List α} {k : κ} {x : α}
    (h : (xs.map key).Nodup) : xs.find? (fun y => key y = k) = some x ↔ x ∈ xs ∧ key x = k := by
  have hfound : ∀ {y}, xs.find? (fun y => key y = k) = some y → y ∈ xs ∧ key y = k := fun hfind =>
    ⟨List.mem_of_find?_eq_some hfind, by simpa using List.find?_some hfind⟩
  refine ⟨hfound, fun ⟨hx, hkey⟩ => ?_⟩
  cases hfind : xs.find? (fun y => key y = k) with
  | none => exact absurd hkey (by simpa using List.find?_eq_none.mp hfind x hx)
  | some y =>
      obtain ⟨hy, hkey'⟩ := hfound hfind
      rw [List.inj_on_of_nodup_map h hy hx (hkey'.trans hkey.symm)]

end Isaforge
