/-
# `NetProbes.Lib.HashMap` — a bounded hash map with a key cursor

A kernel hash map as its callers see it: at most `cap` entries, one per key,
kept in the order in which the key cursor walks them, bucket after bucket.  A
new entry goes to the front of its bucket.  Which bucket that is is the hash
function's business, so it is a parameter, `HashOrder.bucket`.

    insert k v      an entry for `k`; the flag says whether one may, must or
                    must not be there already; a new key needs room
    delete k        the entry for `k` goes, an absent key is an error
    modify k f      the value under `k` changed in place
    nextKey k       the key after `k`; the first key when `k` is absent;
                    nothing after the last one

The rules the proofs use are `lookup_eq_some_iff` (a lookup is membership),
one `lookup_*` lemma for each operation, and the two cursor rules
`nextKey_of_absent` and `nextKey_of_split`.
-/
import Mathlib

namespace NetProbes.Lib

/-- The bucket of a key. -/
class HashOrder (K : Type) where
  bucket : K → Nat

/-- A hash map with at most `cap` entries, in cursor order. -/
structure HashMap (K V : Type) (cap : Nat) where
  entries : List (K × V)
  nodup : (entries.map Prod.fst).Nodup
  size_le : entries.length ≤ cap

/-- The flags of an update. -/
inductive UpdateFlag where
  | any
  | noexist
  | exist
  deriving DecidableEq, Repr

/-- The errors of an update or a delete. -/
inductive MapError where
  | eexist
  | enoent
  | e2big
  deriving DecidableEq, Repr

namespace HashMap

variable {K V : Type} {cap : Nat}

/-- The map with no entries. -/
def empty : HashMap K V cap := ⟨[], List.nodup_nil, Nat.zero_le _⟩

/-- The keys, in cursor order. -/
def keys (m : HashMap K V cap) : List K := m.entries.map Prod.fst

variable [DecidableEq K]

/-- The value stored under a key. -/
def lookup (m : HashMap K V cap) (k : K) : Option V :=
  (m.entries.find? fun e => decide (e.1 = k)).map Prod.snd

/-- The entries other than the one for `k`. -/
def others (m : HashMap K V cap) (k : K) : List (K × V) :=
  m.entries.filter fun e => decide (e.1 ≠ k)

/-! ## Lookups are membership -/

theorem lookup_eq_some_iff {m : HashMap K V cap} {k : K} {v : V} :
    m.lookup k = some v ↔ (k, v) ∈ m.entries := by
  obtain ⟨es, hnd, _⟩ := m
  simp only [lookup]
  induction es with
  | nil => simp
  | cons e es ih =>
      simp only [List.map_cons, List.nodup_cons] at hnd
      have ih' := ih hnd.2 (by simp only [List.length_cons] at *; omega)
      by_cases he : e.1 = k
      · simp only [List.find?_cons, he, decide_true, Option.map_some, Option.some.injEq,
          List.mem_cons]
        constructor
        · intro h
          exact Or.inl (by rw [← h, ← he])
        · rintro (h | h)
          · rw [← h]
          · exact absurd (List.mem_map_of_mem (f := Prod.fst) h) (he ▸ hnd.1)
      · have hne : ¬ (k, v) = e := fun h => he (by rw [← h])
        simp only [List.find?_cons, he, decide_false, List.mem_cons, hne, false_or]
        exact ih'

theorem lookup_eq_none_iff {m : HashMap K V cap} {k : K} :
    m.lookup k = none ↔ k ∉ m.keys := by
  simp only [lookup, keys, Option.map_eq_none_iff, List.find?_eq_none, decide_eq_true_eq,
    List.mem_map, not_exists, not_and]

theorem mem_keys_iff {m : HashMap K V cap} {k : K} :
    k ∈ m.keys ↔ ∃ v, m.lookup k = some v := by
  constructor
  · intro h
    obtain ⟨⟨k', v⟩, he, rfl⟩ := List.mem_map.mp h
    exact ⟨v, lookup_eq_some_iff.mpr he⟩
  · rintro ⟨v, hv⟩
    exact List.mem_map_of_mem (f := Prod.fst) (lookup_eq_some_iff.mp hv)

@[simp] theorem lookup_empty (k : K) : (empty : HashMap K V cap).lookup k = none := rfl

theorem eq_nil_of_lookup {m : HashMap K V cap} (h : ∀ k, m.lookup k = none) :
    m.entries = [] := by
  cases hm : m.entries with
  | nil => rfl
  | cons e es =>
      have hmem : (e.1, e.2) ∈ m.entries := by simp [hm]
      rw [← lookup_eq_some_iff, h e.1] at hmem
      exact absurd hmem (by simp)

/-- The element behind the first occurrence of `k`. -/
def successor : List K → K → Option K
  | [], _ => none
  | a :: l, k => if a = k then l.head? else successor l k

/-- The cursor: the key after `k`, the first key when `k` is absent. -/
def nextKey (m : HashMap K V cap) (k : K) : Option K :=
  if k ∈ m.keys then successor m.keys k else m.keys.head?

theorem successor_split {l₂ : List K} {k : K} :
    ∀ l₁ : List K, k ∉ l₁ → successor (l₁ ++ k :: l₂) k = l₂.head?
  | [], _ => if_pos rfl
  | a :: l₁, h => by
      have hak : ¬ a = k := fun hak => h (by simp [hak])
      have htail : k ∉ l₁ := fun hmem => h (List.mem_cons_of_mem a hmem)
      simp only [List.cons_append, successor, if_neg hak]
      exact successor_split l₁ htail

theorem nextKey_of_absent {m : HashMap K V cap} {k : K} (h : k ∉ m.keys) :
    m.nextKey k = m.keys.head? := if_neg h

theorem nextKey_of_split {m : HashMap K V cap} {k : K} {l₁ l₂ : List K}
    (h : m.keys = l₁ ++ k :: l₂) : m.nextKey k = l₂.head? := by
  have hnd : (l₁ ++ k :: l₂).Nodup := h ▸ m.nodup
  have hk : k ∉ l₁ := fun hmem =>
    (List.nodup_append.mp hnd).2.2 k hmem k (by simp) rfl
  rw [nextKey, h, if_pos (by simp)]
  exact successor_split l₁ hk

/-- Where the cursor stands on an entry: its value, and the next stop. -/
theorem cursor_at {m : HashMap K V cap} {es₁ es₂ : List (K × V)} {e : K × V}
    (h : m.entries = es₁ ++ e :: es₂) :
    m.lookup e.1 = some e.2 ∧ m.nextKey e.1 = (es₂.map Prod.fst).head? := by
  have hkeys : m.keys = es₁.map Prod.fst ++ e.1 :: es₂.map Prod.fst := by simp [keys, h]
  exact ⟨lookup_eq_some_iff.mpr (by simp [h]), nextKey_of_split hkeys⟩

theorem others_nodup (m : HashMap K V cap) (k : K) : ((m.others k).map Prod.fst).Nodup :=
  m.nodup.sublist (List.filter_sublist.map Prod.fst)

theorem others_length_le (m : HashMap K V cap) (k : K) :
    (m.others k).length ≤ m.entries.length :=
  List.length_filter_le _ _

theorem mem_others {m : HashMap K V cap} {k : K} {e : K × V} :
    e ∈ m.others k ↔ e ∈ m.entries ∧ e.1 ≠ k := by
  simp [others, List.mem_filter]

/-- The map without the entry for `k`. -/
def erase (m : HashMap K V cap) (k : K) : HashMap K V cap :=
  ⟨m.others k, m.others_nodup k, (m.others_length_le k).trans m.size_le⟩

/-- Delete, an error when the key is absent. -/
def delete (m : HashMap K V cap) (k : K) : Except MapError (HashMap K V cap) :=
  match m.lookup k with
  | some _ => .ok (m.erase k)
  | none => .error .enoent

theorem lookup_erase_self (m : HashMap K V cap) (k : K) : (m.erase k).lookup k = none := by
  rw [lookup_eq_none_iff]
  intro h
  obtain ⟨e, he, hk⟩ := List.mem_map.mp h
  exact (mem_others.mp he).2 hk

theorem lookup_erase_of_ne {m : HashMap K V cap} {k k' : K} (h : k' ≠ k) :
    (m.erase k).lookup k' = m.lookup k' := by
  apply Option.ext
  intro v
  rw [lookup_eq_some_iff, lookup_eq_some_iff]
  show (k', v) ∈ m.others k ↔ _
  rw [mem_others]
  exact and_iff_left h

theorem delete_eq {m : HashMap K V cap} {k : K} (h : ∃ v, m.lookup k = some v) :
    m.delete k = .ok (m.erase k) := by
  obtain ⟨v, hv⟩ := h
  simp [delete, hv]

/-- What a delete that returned did. -/
theorem lookup_delete {m m' : HashMap K V cap} {k : K} (h : m.delete k = .ok m') (k' : K) :
    m'.lookup k' = if k' = k then none else m.lookup k' := by
  cases hk : m.lookup k with
  | none => simp [delete, hk] at h
  | some v =>
      rw [delete_eq ⟨v, hk⟩] at h
      cases h
      by_cases hkk : k' = k
      · rw [if_pos hkk, hkk, lookup_erase_self]
      · rw [if_neg hkk, lookup_erase_of_ne hkk]

/-! ## Writing through a pointer to a value -/

/-- The value under `k` changed in place, nothing where there is none. -/
def modify (m : HashMap K V cap) (k : K) (f : V → V) : HashMap K V cap where
  entries := m.entries.map fun e => if e.1 = k then (e.1, f e.2) else e
  nodup := by
    have hkeys : (m.entries.map fun e => if e.1 = k then (e.1, f e.2) else e).map Prod.fst
        = m.entries.map Prod.fst := by
      rw [List.map_map]
      apply List.map_congr_left
      intro e _
      by_cases he : e.1 = k <;> simp [he]
    rw [hkeys]
    exact m.nodup
  size_le := by
    rw [List.length_map]
    exact m.size_le

theorem lookup_modify (m : HashMap K V cap) (k k' : K) (f : V → V) :
    (m.modify k f).lookup k' = if k' = k then (m.lookup k').map f else m.lookup k' := by
  apply Option.ext
  intro v
  rw [lookup_eq_some_iff]
  show (k', v) ∈ m.entries.map _ ↔ _
  simp only [List.mem_map]
  by_cases hk : k' = k
  · subst hk
    simp only [if_true, Option.map_eq_some_iff, lookup_eq_some_iff]
    constructor
    · rintro ⟨⟨a, w⟩, hmem, heq⟩
      by_cases ha : a = k'
      · simp only [ha, if_true, Prod.mk.injEq, true_and] at heq
        exact ⟨w, ha ▸ hmem, heq⟩
      · simp [ha] at heq
    · rintro ⟨w, hmem, rfl⟩
      exact ⟨(k', w), hmem, by simp⟩
  · simp only [if_neg hk, lookup_eq_some_iff]
    constructor
    · rintro ⟨⟨a, w⟩, hmem, heq⟩
      by_cases ha : a = k
      · simp only [ha, if_true, Prod.mk.injEq] at heq
        exact absurd heq.1.symm hk
      · simp only [ha, if_false] at heq
        exact heq ▸ hmem
    · intro hmem
      exact ⟨(k', v), hmem, by simp [hk]⟩

/-! ## Update -/

variable [HashOrder K]

/-- An entry put at the front of its bucket. -/
def put (es : List (K × V)) (e : K × V) : List (K × V) :=
  es.takeWhile (fun d => decide (HashOrder.bucket d.1 < HashOrder.bucket e.1)) ++
    e :: es.dropWhile (fun d => decide (HashOrder.bucket d.1 < HashOrder.bucket e.1))

omit [DecidableEq K] in
theorem put_perm (es : List (K × V)) (e : K × V) : (put es e).Perm (e :: es) := by
  simp only [put]
  exact List.perm_middle.trans (by rw [List.takeWhile_append_dropWhile])

/-- The entry for `k` set to `v`, where there is room for it. -/
def set (m : HashMap K V cap) (k : K) (v : V) (h : (m.others k).length < cap) :
    HashMap K V cap where
  entries := put (m.others k) (k, v)
  nodup := by
    rw [((put_perm _ _).map Prod.fst).nodup_iff]
    simp only [List.map_cons, List.nodup_cons]
    refine ⟨?_, m.others_nodup k⟩
    intro hk
    obtain ⟨e, he, hek⟩ := List.mem_map.mp hk
    exact (mem_others.mp he).2 hek
  size_le := by
    rw [(put_perm _ _).length_eq]
    exact h

omit [HashOrder K] in
theorem others_length_of_absent {m : HashMap K V cap} {k : K} (h : m.lookup k = none) :
    (m.others k).length = m.entries.length := by
  have : m.others k = m.entries := by
    simp only [others, List.filter_eq_self, decide_eq_true_eq]
    intro e he hk
    exact lookup_eq_none_iff.mp h (List.mem_map.mpr ⟨e, he, hk⟩)
  rw [this]

omit [HashOrder K] in
theorem others_length_of_present {m : HashMap K V cap} {k : K} {v : V}
    (h : m.lookup k = some v) : (m.others k).length < m.entries.length := by
  have hmem := lookup_eq_some_iff.mp h
  exact List.length_filter_lt_length_iff_exists.mpr ⟨(k, v), hmem, by simp⟩

/-- Update: the flag decides about a key that is (not) there already, and a
new key needs room. -/
def update (m : HashMap K V cap) (k : K) (v : V) (flag : UpdateFlag) :
    Except MapError (HashMap K V cap) :=
  match h : m.lookup k with
  | some _ =>
      if flag = .noexist then .error .eexist
      else .ok (m.set k v ((others_length_of_present h).trans_le m.size_le))
  | none =>
      if flag = .exist then .error .enoent
      else if hroom : m.entries.length < cap then
        .ok (m.set k v ((others_length_of_absent h).trans_lt hroom))
      else .error .e2big

theorem lookup_set_self {m : HashMap K V cap} {k : K} {v : V}
    (h : (m.others k).length < cap) : (m.set k v h).lookup k = some v := by
  rw [lookup_eq_some_iff]
  exact (put_perm _ _).mem_iff.mpr (by simp)

theorem lookup_set_of_ne {m : HashMap K V cap} {k k' : K} {v : V}
    (h : (m.others k).length < cap) (hk : k' ≠ k) :
    (m.set k v h).lookup k' = m.lookup k' := by
  apply Option.ext
  intro v'
  rw [lookup_eq_some_iff, lookup_eq_some_iff]
  show (k', v') ∈ put (m.others k) (k, v) ↔ _
  rw [(put_perm _ _).mem_iff, List.mem_cons, mem_others]
  simp [hk]

/-- What an update that returned did. -/
theorem lookup_update {m m' : HashMap K V cap} {k : K} {v : V} {flag : UpdateFlag}
    (h : m.update k v flag = .ok m') (k' : K) :
    m'.lookup k' = if k' = k then some v else m.lookup k' := by
  have key : ∃ hlt, m' = m.set k v hlt := by
    unfold update at h
    split at h
    · split at h
      · cases h
      · exact ⟨_, (Except.ok.inj h).symm⟩
    · split at h
      · cases h
      · split at h
        · exact ⟨_, (Except.ok.inj h).symm⟩
        · cases h
  obtain ⟨hlt, rfl⟩ := key
  by_cases hk : k' = k
  · rw [if_pos hk, hk, lookup_set_self]
  · rw [if_neg hk, lookup_set_of_ne hlt hk]

/-- With room in the map an unconditional update returns. -/
theorem update_any_ok {m : HashMap K V cap} {k : K} {v : V}
    (h : m.entries.length < cap ∨ ∃ w, m.lookup k = some w) :
    ∃ m', m.update k v .any = .ok m' := by
  unfold update
  split
  · exact ⟨_, rfl⟩
  · rename_i hnone
    have hroom : m.entries.length < cap := by
      rcases h with h | ⟨w, hw⟩
      · exact h
      · rw [hnone] at hw; cases hw
    simp [hroom]

/-- With room in the map an insert fails only where the key is present. -/
theorem update_noexist_error {m : HashMap K V cap} {k : K} {v : V} {e : MapError}
    (h : m.update k v .noexist = .error e)
    (hroom : m.entries.length < cap ∨ ∃ w, m.lookup k = some w) : e = .eexist := by
  unfold update at h
  split at h
  · rw [if_pos rfl] at h
    exact (Except.error.inj h).symm
  · rename_i hnone
    have hlt : m.entries.length < cap := by
      rcases hroom with hlt | ⟨w, hw⟩
      · exact hlt
      · rw [hnone] at hw; cases hw
    simp [hlt] at h

/-- An insert that fails because of the key found it. -/
theorem present_of_eexist {m : HashMap K V cap} {k : K} {v : V}
    (h : m.update k v .noexist = .error .eexist) : ∃ w, m.lookup k = some w := by
  unfold update at h
  split at h
  · rename_i w hw
    exact ⟨w, hw⟩
  · rename_i hnone
    rw [if_neg (by decide)] at h
    split at h
    · cases h
    · cases h

/-- Lookup, and where there is no entry an insert and a second lookup: the map
in which the pointer returned leads to a value, `none` for no pointer. -/
def lookupOrTryInit (m : HashMap K V cap) (k : K) (init : V) : Option (HashMap K V cap) :=
  match m.lookup k with
  | some _ => some m
  | none =>
      match m.update k init .noexist with
      | .ok m' => (m'.lookup k).map fun _ => m'
      | .error .eexist => (m.lookup k).map fun _ => m
      | .error _ => none

/-- With room for it, or with the entry there, the pointer leads to the value
or to the initial one. -/
theorem lookupOrTryInit_ok {m : HashMap K V cap} (k : K) (init : V)
    (h : m.entries.length < cap ∨ ∃ w, m.lookup k = some w) :
    ∃ m', m.lookupOrTryInit k init = some m' ∧
      ∀ k', m'.lookup k' = if k' = k then some ((m.lookup k).getD init) else m.lookup k' := by
  cases hk : m.lookup k with
  | some v =>
      refine ⟨m, by simp only [lookupOrTryInit, hk], fun k' => ?_⟩
      by_cases hkk : k' = k
      · rw [if_pos hkk, hkk, hk]
        rfl
      · rw [if_neg hkk]
  | none =>
      have hroom : m.entries.length < cap := by
        rcases h with h | ⟨w, hw⟩
        · exact h
        · rw [hk] at hw
          cases hw
      obtain ⟨m', hm⟩ : ∃ m', m.update k init .noexist = .ok m' := by
        unfold update
        split
        · rename_i v hv
          rw [hk] at hv
          cases hv
        · simp [hroom]
      have hself : m'.lookup k = some init := by rw [lookup_update hm, if_pos rfl]
      refine ⟨m', by simp only [lookupOrTryInit, hk, hm, hself, Option.map_some], fun k' => ?_⟩
      rw [lookup_update hm]
      rfl

/-! ## The cursor and new entries -/

/-- The keys are in the order of their buckets. -/
def Ordered (m : HashMap K V cap) : Prop :=
  m.keys.Pairwise fun a b => HashOrder.bucket a ≤ HashOrder.bucket b

omit [DecidableEq K] in
theorem ordered_empty : Ordered (empty : HashMap K V cap) := List.Pairwise.nil

theorem Ordered.erase {m : HashMap K V cap} (h : Ordered m) (k : K) : Ordered (m.erase k) :=
  List.Pairwise.sublist (List.filter_sublist.map Prod.fst) h

/-- A new key among the keys. -/
def putKey (ks : List K) (k : K) : List K :=
  ks.takeWhile (fun j => decide (HashOrder.bucket j < HashOrder.bucket k)) ++
    k :: ks.dropWhile (fun j => decide (HashOrder.bucket j < HashOrder.bucket k))

omit [DecidableEq K] in
theorem map_fst_put (es : List (K × V)) (e : K × V) :
    (put es e).map Prod.fst = putKey (es.map Prod.fst) e.1 := by
  simp only [put, putKey, List.map_append, List.map_cons, List.takeWhile_map, List.dropWhile_map]
  rfl

/-- What an insert that returned did to the keys. -/
theorem update_noexist_keys {m m' : HashMap K V cap} {k : K} {v : V}
    (h : m.update k v .noexist = .ok m') : k ∉ m.keys ∧ m'.keys = putKey m.keys k := by
  unfold update at h
  split at h
  · simp at h
  · rename_i hnone
    split at h
    · cases h
    · split at h
      · have habs := lookup_eq_none_iff.mp hnone
        have hsame : m.others k = m.entries :=
          List.filter_eq_self.mpr fun e he =>
            decide_eq_true fun hek => habs (hek ▸ List.mem_map_of_mem (f := Prod.fst) he)
        cases h
        refine ⟨habs, ?_⟩
        show (put (m.others k) (k, v)).map Prod.fst = _
        rw [map_fst_put, hsame]
        rfl
      · cases h

omit [DecidableEq K] in
/-- The keys in front of a new one are in buckets before its own. -/
theorem putKey_split (ks : List K) (k : K) :
    ∃ l₁ l₂, ks = l₁ ++ l₂ ∧ putKey ks k = l₁ ++ k :: l₂ ∧
      ∀ j ∈ l₁, HashOrder.bucket j < HashOrder.bucket k := by
  refine ⟨_, _, (List.takeWhile_append_dropWhile).symm, rfl, fun j hj => ?_⟩
  have hlt := List.mem_takeWhile_imp hj
  exact of_decide_eq_true hlt

omit [DecidableEq K] in
/-- A new key leaves the others in their order. -/
theorem putKey_around {ks l₁ l₂ : List K} {c : K} (k : K) (h : ks = l₁ ++ c :: l₂) :
    ∃ l₁' l₂', putKey ks k = l₁' ++ c :: l₂' ∧ l₁ ⊆ l₁' ∧ l₂ ⊆ l₂' := by
  obtain ⟨a, b, hab, hput, _⟩ := putKey_split ks k
  rw [hput]
  rw [hab] at h
  rcases List.append_eq_append_iff.mp h with ⟨as, rfl, rfl⟩ | ⟨bs, rfl, hb⟩
  · refine ⟨a ++ k :: as, l₂, by simp, ?_, List.Subset.refl _⟩
    intro j hj
    rcases List.mem_append.mp hj with hj | hj
    · exact List.mem_append_left _ hj
    · exact List.mem_append_right _ (List.mem_cons_of_mem _ hj)
  · cases bs with
    | nil =>
        cases hb
        exact ⟨l₁ ++ [k], l₂, by simp, List.subset_append_left _ _, List.Subset.refl _⟩
    | cons d bs =>
        obtain ⟨rfl, hl₂⟩ := List.cons.inj hb
        refine ⟨l₁, bs ++ k :: b, by simp, List.Subset.refl _, ?_⟩
        intro j hj
        rw [hl₂] at hj
        rcases List.mem_append.mp hj with hj | hj
        · exact List.mem_append_left _ hj
        · exact List.mem_append_right _ (List.mem_cons_of_mem _ hj)

omit [DecidableEq K] in
theorem pairwise_putKey {k : K} : ∀ {ks : List K},
    (ks.Pairwise fun a b => HashOrder.bucket a ≤ HashOrder.bucket b) →
    (putKey ks k).Pairwise fun a b => HashOrder.bucket a ≤ HashOrder.bucket b
  | [], _ => List.pairwise_singleton _ _
  | a :: ks, h => by
      obtain ⟨ha, hks⟩ := List.pairwise_cons.mp h
      by_cases hak : HashOrder.bucket a < HashOrder.bucket k
      · have hput : putKey (a :: ks) k = a :: putKey ks k := by simp [putKey, hak]
        obtain ⟨l₁, l₂, hl, hput', _⟩ := putKey_split ks k
        rw [hput]
        refine List.pairwise_cons.mpr ⟨fun j hj => ?_, pairwise_putKey hks⟩
        rw [hput'] at hj
        rcases List.mem_append.mp hj with hj | hj
        · exact ha j (hl ▸ List.mem_append_left _ hj)
        · rcases List.mem_cons.mp hj with rfl | hj
          · exact Nat.le_of_lt hak
          · exact ha j (hl ▸ List.mem_append_right _ hj)
      · have hput : putKey (a :: ks) k = k :: a :: ks := by simp [putKey, hak]
        rw [hput]
        refine List.pairwise_cons.mpr ⟨fun j hj => ?_, h⟩
        rcases List.mem_cons.mp hj with rfl | hj
        · exact Nat.le_of_not_lt hak
        · exact (Nat.le_of_not_lt hak).trans (ha j hj)

theorem Ordered.insert {m m' : HashMap K V cap} {k : K} {v : V} (hm : Ordered m)
    (h : m.update k v .noexist = .ok m') : Ordered m' := by
  rw [Ordered, (update_noexist_keys h).2]
  exact pairwise_putKey hm

end HashMap

end NetProbes.Lib
