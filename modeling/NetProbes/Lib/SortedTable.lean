/-
# `NetProbes.Lib.SortedTable` — the last entry that is not behind a place

A table is sorted by a key, and a place belongs to the last entry whose key is
not behind it.  The loop that finds it halves an interval of indices that
holds the entry, if there is one:

    mid = start + (end - start + 1) / 2
    not behind   start = mid
    behind       end = mid - 1

What is asked of an entry, `p`, holds of the entries up to some place and of
none after it (`Descends`).  The answer is then the last entry of which it
holds (`lastWhere_eq`), the largest of these (`lastWhere_some`).
-/
import Mathlib

namespace NetProbes.Lib

variable {α : Type}

/-- The loop, with indices that may be -1; `none` outside the table, or when it
does not end. -/
def searchLoop (l : List α) (p : α → Bool) : Nat → Int → Int → Option Int
  | 0, start, stop => if start = stop then some start else none
  | fuel + 1, start, stop =>
      if start < stop then
        let mid := start + (stop - start + 1) / 2
        match l[mid.toNat]? with
        | some a => if p a then searchLoop l p fuel mid stop else searchLoop l p fuel start (mid - 1)
        | none => none
      else if start = stop then some start
      else none

/-- The entry the loop ends at, if it is one. -/
def lastWhere (l : List α) (p : α → Bool) : Option α :=
  (searchLoop l p l.length 0 (l.length - 1)).bind fun start =>
    (l[start.toNat]?).filter p

/-- What holds of an entry holds of those in front of it. -/
def Descends (l : List α) (p : α → Bool) : Prop := l.Pairwise fun a b => p b = true → p a = true

section Search

variable {l : List α} {p : α → Bool}

/-- Between the ends of the interval is the last entry of which it holds. -/
structure Between (l : List α) (p : α → Bool) (start stop : Int) : Prop where
  start_nonneg : 0 ≤ start
  start_le : start ≤ stop
  stop_lt : stop < l.length
  at_start : start = 0 ∨ ∃ a, l[start.toNat]? = some a ∧ p a = true
  behind : ∀ i : Nat, stop < i → ∀ a, l[i]? = some a → p a = false

theorem searchLoop_between (hdesc : Descends l p) :
    ∀ (fuel : Nat) (start stop : Int), Between l p start stop → stop - start ≤ fuel →
      ∃ m, searchLoop l p fuel start stop = some m ∧ Between l p m m
  | 0, start, stop, h, hfuel => by
      obtain rfl : start = stop := le_antisymm h.start_le (by omega)
      exact ⟨start, if_pos rfl, h⟩
  | fuel + 1, start, stop, h, hfuel => by
      by_cases hlt : start < stop
      · have hmid : start < start + (stop - start + 1) / 2 ∧
            start + (stop - start + 1) / 2 ≤ stop := by omega
        have hstop := h.stop_lt
        have hstart := h.start_nonneg
        have hget := List.getElem?_eq_getElem
          (show (start + (stop - start + 1) / 2).toNat < l.length by omega)
        simp only [searchLoop, if_pos hlt, hget]
        split
        · rename_i hp
          exact searchLoop_between hdesc fuel _ _ ⟨by omega, hmid.2, hstop, Or.inr ⟨_, hget, hp⟩,
            h.behind⟩ (by omega)
        · rename_i hp
          refine searchLoop_between hdesc fuel _ _ ⟨hstart, by omega, by omega, h.at_start, ?_⟩
            (by omega)
          intro i hi a ha
          obtain ⟨hlen, rfl⟩ := List.getElem?_eq_some_iff.mp ha
          rcases eq_or_ne (start + (stop - start + 1) / 2).toNat i with rfl | hne
          · exact Bool.eq_false_iff.mpr hp
          · refine Bool.eq_false_iff.mpr fun hpa => hp ?_
            exact List.pairwise_iff_getElem.mp hdesc _ _ _ hlen (by omega) hpa
      · obtain rfl : start = stop := le_antisymm h.start_le (by omega)
        exact ⟨start, by rw [searchLoop, if_neg hlt, if_pos rfl], h⟩

/-- It holds of no entry behind the one the interval has come down to. -/
theorem Between.filter_drop {m : Int} (h : Between l p m m) :
    (l.drop (m.toNat + 1)).filter p = [] := by
  rw [List.filter_eq_nil_iff]
  intro a ha hpa
  obtain ⟨i, hi, rfl⟩ := List.mem_iff_getElem.mp ha
  rw [List.getElem_drop] at hpa
  rw [List.length_drop] at hi
  have hnot := h.behind (m.toNat + 1 + i) (by omega) _
    (List.getElem?_eq_getElem (show _ < l.length by omega))
  rw [hpa] at hnot
  cases hnot

theorem Between.filter_take (hdesc : Descends l p) {m : Int} (h : Between l p m m)
    (hm : m.toNat < l.length) (hp : p l[m.toNat] = true) :
    l.filter p = l.take (m.toNat + 1) := by
  have htake : (l.take (m.toNat + 1)).filter p = l.take (m.toNat + 1) := by
    rw [List.filter_eq_self]
    intro a ha
    obtain ⟨i, hi, rfl⟩ := List.mem_iff_getElem.mp ha
    rw [List.getElem_take]
    rw [List.length_take] at hi
    rcases Nat.lt_or_ge i m.toNat with hlt | hge
    · exact List.pairwise_iff_getElem.mp hdesc i _ (by omega) hm hlt hp
    · obtain rfl : i = m.toNat := by omega
      exact hp
  rw [← List.take_append_drop (m.toNat + 1) l, List.filter_append, h.filter_drop, List.append_nil,
    htake, List.take_append_drop]

/-- The search finds the last entry of which `p` holds. -/
theorem lastWhere_eq (hdesc : Descends l p) : lastWhere l p = (l.filter p).getLast? := by
  rcases Nat.eq_zero_or_pos l.length with hlen | hlen
  · obtain rfl := List.length_eq_zero_iff.mp hlen
    rfl
  obtain ⟨m, hloop, hm⟩ := searchLoop_between hdesc l.length 0 (l.length - 1)
    ⟨le_refl _, by omega, by omega, Or.inl rfl, fun i hi a ha => by
      have := (List.getElem?_eq_some_iff.mp ha).1
      omega⟩ (by omega)
  have hmlt : m.toNat < l.length := by
    have := hm.stop_lt
    omega
  have hget := List.getElem?_eq_getElem hmlt
  rw [lastWhere, hloop, Option.bind_some, hget]
  by_cases hp : p l[m.toNat] = true
  · rw [hm.filter_take hdesc hmlt hp, Option.filter_some_pos hp, List.getLast?_take]
    simp [hget]
  · -- it does not hold of the entry, so this is the first one and it holds of none
    obtain rfl : m = 0 := by
      rcases hm.at_start with hzero | ⟨a, ha, hpa⟩
      · exact hzero
      · obtain rfl := Option.some.inj (hget.symm.trans ha)
        exact absurd hpa hp
    have hnone : l.filter p = [] := by
      have hdrop : (l.drop 1).filter p = [] := hm.filter_drop
      rw [← List.take_append_drop 1 l, List.filter_append, hdrop, List.append_nil,
        List.filter_eq_nil_iff]
      intro a ha
      rw [List.take_one, Option.mem_toList, List.head?_eq_getElem?] at ha
      obtain rfl := Option.some.inj (hget.symm.trans ha)
      exact hp
    rw [hnone, Option.filter_some_neg (Bool.eq_false_iff.mpr hp)]
    rfl

/-- Nothing is found where it holds of nothing. -/
theorem lastWhere_eq_none_iff (hdesc : Descends l p) :
    lastWhere l p = none ↔ ∀ a ∈ l, p a = false := by
  rw [lastWhere_eq hdesc, List.getLast?_eq_none_iff, List.filter_eq_nil_iff]
  exact forall₂_congr fun _ _ => Bool.not_eq_true _ ▸ Iff.rfl

/-- In a sorted table what is found is the largest of which it holds. -/
theorem lastWhere_some {cmp : α → α → Ordering} [Std.TransCmp cmp] (hdesc : Descends l p)
    (hsorted : l.Pairwise fun a b => (cmp a b).isLE = true) {a : α} (h : lastWhere l p = some a) :
    a ∈ l ∧ p a = true ∧ ∀ b ∈ l, p b = true → (cmp b a).isLE = true := by
  rw [lastWhere_eq hdesc] at h
  obtain ⟨ys, hys⟩ := List.getLast?_eq_some_iff.mp h
  have hmem : a ∈ l.filter p := hys ▸ List.mem_append_right ys (List.mem_singleton_self a)
  refine ⟨List.mem_of_mem_filter hmem, List.of_mem_filter hmem, fun b hb hpb => ?_⟩
  have hpair := hsorted.filter p
  have hmem' : b ∈ l.filter p := List.mem_filter.mpr ⟨hb, hpb⟩
  rw [hys] at hpair hmem'
  rcases List.mem_append.mp hmem' with hbefore | hlast
  · exact (List.pairwise_append.mp hpair).2.2 b hbefore a (List.mem_singleton_self a)
  · rw [List.mem_singleton.mp hlast]
    exact Std.ReflCmp.isLE_rfl

end Search

/-! ## Sorting -/

/-- `qsort` by a comparison: the sorted list, one of them where different
entries compare equal. -/
def sortBy (cmp : α → α → Ordering) (l : List α) : List α := l.mergeSort fun a b => (cmp a b).isLE

section Sorted

variable (cmp : α → α → Ordering) (l : List α)

theorem mem_sortBy {cmp : α → α → Ordering} {l : List α} {a : α} : a ∈ sortBy cmp l ↔ a ∈ l :=
  (List.mergeSort_perm l _).mem_iff

theorem sortBy_pairwise [Std.TransCmp cmp] :
    (sortBy cmp l).Pairwise fun a b => (cmp a b).isLE = true := by
  have htrans : ∀ a b c : α, (cmp a b).isLE = true → (cmp b c).isLE = true →
      (cmp a c).isLE = true := fun _ _ _ => Std.TransCmp.isLE_trans
  have htotal : ∀ a b : α, ((cmp a b).isLE || (cmp b a).isLE) = true := by
    intro a b
    have hswap : cmp b a = (cmp a b).swap := Std.OrientedCmp.eq_swap
    rw [hswap]
    cases cmp a b <;> rfl
  exact List.pairwise_mergeSort htrans htotal l

/-- The search in the sorted table, in terms of the entries as they came. -/
theorem lastWhere_sortBy {cmp : α → α → Ordering} [Std.TransCmp cmp] {p : α → Bool}
    (hp : ∀ a b, (cmp a b).isLE = true → p b = true → p a = true) (l : List α) :
    (lastWhere (sortBy cmp l) p = none ↔ ∀ a ∈ l, p a = false) ∧
      ∀ a, lastWhere (sortBy cmp l) p = some a →
        a ∈ l ∧ p a = true ∧ ∀ b ∈ l, p b = true → (cmp b a).isLE = true := by
  have hsorted := sortBy_pairwise cmp l
  have hdesc : Descends (sortBy cmp l) p := hsorted.imp fun {a b} hle => hp a b hle
  refine ⟨?_, fun a ha => ?_⟩
  · rw [lastWhere_eq_none_iff hdesc]
    exact forall_congr' fun a => by rw [mem_sortBy]
  · obtain ⟨hmem, hpa, hlast⟩ := lastWhere_some hdesc hsorted ha
    exact ⟨mem_sortBy.mp hmem, hpa, fun b hb => hlast b (mem_sortBy.mpr hb)⟩

end Sorted

end NetProbes.Lib
