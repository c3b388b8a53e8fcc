/-
# `NetProbes.Lib.Layout` — a struct in memory and a reader without padding

A struct is a list of fields, each a number of elements of one width.  In
memory a field starts at the next multiple of its width, or right behind the
field before it when the struct is packed; the bytes in between, and those that
fill the struct up to its alignment, keep what the memory held.  A reader that
knows no padding takes the elements one behind the other.

    leBytes w n      the `w` bytes of a number, least significant first
    image            the bytes of the struct, from offset `off` on
    readFields       the reader

    no padding before any field  →  the reader gets the values  (`readFields_image`)
    off by half an element       →  it gets them only where they are all the same
                                    half twice                  (`readElems_shifted`)
-/
import NetProbes.Lib.Bytes

namespace NetProbes.Lib

/-! ## Numbers of any width -/

/-- The `w` bytes of a number, least significant first. -/
def leBytes : Nat → Nat → List UInt8
  | 0, _ => []
  | w + 1, n => UInt8.ofNat n :: leBytes w (n / 256)

/-- The number that bytes hold, least significant first. -/
def leValue : List UInt8 → Nat
  | [] => 0
  | b :: bs => b.toNat + 256 * leValue bs

@[simp] theorem leBytes_length (w n : Nat) : (leBytes w n).length = w := by
  induction w generalizing n with
  | zero => rfl
  | succ w ih =>
      rw [leBytes, List.length_cons, ih]

theorem leValue_leBytes {w n : Nat} (h : n < 256 ^ w) : leValue (leBytes w n) = n := by
  induction w generalizing n with
  | zero =>
      rw [pow_zero, Nat.lt_one_iff] at h
      exact h.symm
  | succ w ih =>
      have hdiv : n / 256 < 256 ^ w := by
        rw [Nat.div_lt_iff_lt_mul (by decide), ← pow_succ]
        exact h
      rw [leBytes, leValue, ih hdiv, UInt8.toNat_ofNat']
      exact Nat.mod_add_div n 256

theorem leBytes_leValue (bs : List UInt8) : leBytes bs.length (leValue bs) = bs := by
  induction bs with
  | nil => rfl
  | cons b bs ih =>
      have hb := b.toNat_lt
      have hdiv : (b.toNat + 256 * leValue bs) / 256 = leValue bs := by omega
      have hlow : UInt8.ofNat (b.toNat + 256 * leValue bs) = b := by
        apply UInt8.toNat_inj.mp
        rw [UInt8.toNat_ofNat']
        omega
      rw [List.length_cons, leValue, leBytes, hdiv, ih, hlow]

/-! ## Structs -/

/-- `count` elements of `width` bytes; a scalar has one element. -/
structure Field where
  width : Nat
  count : Nat

def Field.size (f : Field) : Nat := f.width * f.count

/-- A struct: its fields in order, and whether it is packed. -/
structure Struct where
  packed : Bool
  fields : List Field

/-- The elements fit the field. -/
def Field.Fits (f : Field) (vs : List Nat) : Prop :=
  vs.length = f.count ∧ ∀ v ∈ vs, v < 256 ^ f.width

/-- The bytes between an offset and the next multiple of an alignment. -/
def padTo (align off : Nat) : Nat := (align - off % align) % align

/-- The padding before a field. -/
def Struct.padBefore (s : Struct) (off : Nat) (f : Field) : Nat :=
  if s.packed then 0 else padTo f.width off

/-- The alignment of the struct: that of its widest field. -/
def Struct.align (s : Struct) : Nat :=
  if s.packed then 1 else (s.fields.map Field.width).foldl max 1

/-- The bytes of the fields from offset `off` on; padding keeps what the
memory held. -/
def Struct.image (s : Struct) (mem : List UInt8) : Nat → List Field → List (List Nat) → List UInt8
  | off, f :: fs, vs :: rest =>
      let pad := s.padBefore off f
      slice mem off pad ++ (vs.flatMap (leBytes f.width) ++
        s.image mem (off + pad + f.size) fs rest)
  | off, _, _ => slice mem off (padTo s.align off)

/-- Where the fields from offset `off` on end, and the struct with them. -/
def Struct.sizeFrom (s : Struct) : Nat → List Field → Nat
  | off, f :: fs => s.sizeFrom (off + s.padBefore off f + f.size) fs
  | off, [] => off + padTo s.align off

def Struct.size (s : Struct) : Nat := s.sizeFrom 0 s.fields

/-- The bytes of a struct with these values, written over memory. -/
def Struct.bytes (s : Struct) (mem : List UInt8) (values : List (List Nat)) : List UInt8 :=
  s.image mem 0 s.fields values

/-! ## The reader -/

/-- `n` elements of `w` bytes, and the rest. -/
def readElems (w : Nat) : Nat → List UInt8 → Option (List Nat × List UInt8)
  | 0, p => some ([], p)
  | n + 1, p =>
      if w ≤ p.length then
        (readElems w n (p.drop w)).map fun r => (leValue (p.take w) :: r.1, r.2)
      else none

/-- The fields one behind the other; what is left over is not looked at. -/
def readFields : List Field → List UInt8 → Option (List (List Nat))
  | [], _ => some []
  | f :: fs, p =>
      (readElems f.width f.count p).bind fun r => (readFields fs r.2).map (r.1 :: ·)

/-- One element is read off the front. -/
theorem readElems_cons {w n : Nat} {bs p : List UInt8} (h : bs.length = w) :
    readElems w (n + 1) (bs ++ p) =
      (readElems w n p).map fun r => (leValue bs :: r.1, r.2) := by
  have hlen : w ≤ (bs ++ p).length := by
    rw [List.length_append, h]
    exact Nat.le_add_right w p.length
  rw [readElems, if_pos hlen, ← h, List.drop_left, List.take_left]

/-- The elements of a field are read back. -/
theorem readElems_flatMap {w : Nat} (p : List UInt8) {vs : List Nat} (h : ∀ v ∈ vs, v < 256 ^ w) :
    readElems w vs.length (vs.flatMap (leBytes w) ++ p) = some (vs, p) := by
  induction vs with
  | nil => rfl
  | cons v vs ih =>
      have hv := leValue_leBytes (h v List.mem_cons_self)
      have htail := ih fun x hx => h x (List.mem_cons_of_mem v hx)
      rw [List.flatMap_cons, List.append_assoc, List.length_cons,
        readElems_cons (leBytes_length w v), htail, Option.map_some, hv]

/-- No padding before any of the fields from `off` on. -/
def Struct.Dense (s : Struct) : Nat → List Field → Prop
  | _, [] => True
  | off, f :: fs => s.padBefore off f = 0 ∧ s.Dense (off + f.size) fs

instance Struct.decDense (s : Struct) : ∀ (off : Nat) (fs : List Field), Decidable (s.Dense off fs)
  | _, [] => isTrue trivial
  | off, f :: fs =>
      have := s.decDense (off + f.size) fs
      inferInstanceAs (Decidable (_ ∧ _))

/-- Without padding the reader gets the values. -/
theorem readFields_image {s : Struct} {mem : List UInt8} {fs : List Field} :
    ∀ {off : Nat} {values : List (List Nat)}, s.Dense off fs →
      List.Forall₂ Field.Fits fs values →
      readFields fs (s.image mem off fs values) = some values := by
  induction fs with
  | nil =>
      intro off values _ hfits
      cases hfits
      rfl
  | cons f fs ih =>
      intro off values hdense hfits
      cases hfits with
      | cons hf hrest =>
          rename_i vs rest
          obtain ⟨hpad, hdense⟩ := hdense
          have htail := @ih (off + f.size) rest hdense hrest
          have hread := readElems_flatMap (s.image mem (off + f.size) fs rest) hf.2
          rw [hf.1] at hread
          simp only [Struct.image, hpad, slice, List.take_zero, List.nil_append, Nat.add_zero]
          rw [readFields, hread, Option.bind_some, htail, Option.map_some]

/-! ## A reader that is off by half an element -/

/-- Bytes hold a number exactly where they are its bytes. -/
theorem leValue_eq_iff {w n : Nat} {bs : List UInt8} (hlen : bs.length = w) (h : n < 256 ^ w) :
    leValue bs = n ↔ leBytes w n = bs := by
  constructor
  · intro hval
    rw [← hval, ← hlen]
    exact leBytes_leValue bs
  · intro hbytes
    rw [← hbytes]
    exact leValue_leBytes h

/-- Behind half an element the reader takes the second half of each element
with the first half of the next.  Induction on the elements, each one's second
half being what the next is read behind. -/
theorem readElems_shifted {w : Nat} (p : List UInt8) {ks : List Nat}
    (hks : ∀ k ∈ ks, k < 256 ^ (w + w)) :
    ∀ {pad : List UInt8}, pad.length = w →
      ∃ vs rest, readElems (w + w) ks.length (pad ++ (ks.flatMap (leBytes (w + w)) ++ p))
          = some (vs, rest) ∧
        (vs = ks ↔ ∀ k ∈ ks, leBytes (w + w) k = pad ++ pad) := by
  induction ks with
  | nil =>
      intro pad _
      refine ⟨[], _, rfl, ?_⟩
      exact ⟨fun _ k hk => absurd hk List.not_mem_nil, fun _ => rfl⟩
  | cons k ks ih =>
      intro pad hpad
      have hk := hks k List.mem_cons_self
      have hks' : ∀ x ∈ ks, x < 256 ^ (w + w) := fun x hx => hks x (List.mem_cons_of_mem k hx)
      have hlen := leBytes_length (w + w) k
      -- the two halves of the element
      have hlo : ((leBytes (w + w) k).take w).length = w := by
        rw [List.length_take, hlen]
        exact Nat.min_eq_left (Nat.le_add_right w w)
      have hhi : ((leBytes (w + w) k).drop w).length = w := by
        rw [List.length_drop, hlen]
        exact Nat.add_sub_cancel w w
      have hsplit := (List.take_append_drop w (leBytes (w + w) k)).symm
      generalize (leBytes (w + w) k).take w = lo at *
      generalize (leBytes (w + w) k).drop w = hi at *
      obtain ⟨vs, rest, hread, hiff⟩ := ih hks' hhi
      have hfirst : (pad ++ lo).length = w + w := by rw [List.length_append, hpad, hlo]
      refine ⟨leValue (pad ++ lo) :: vs, rest, ?_, ?_⟩
      · have hregroup : pad ++ ((k :: ks).flatMap (leBytes (w + w)) ++ p)
            = (pad ++ lo) ++ (hi ++ (ks.flatMap (leBytes (w + w)) ++ p)) := by
          simp only [List.flatMap_cons, hsplit, List.append_assoc]
        rw [hregroup, List.length_cons, readElems_cons hfirst, hread, Option.map_some]
      · rw [List.cons.injEq, leValue_eq_iff hfirst hk, hiff, List.forall_mem_cons, hsplit]
        constructor
        · rintro ⟨hhead, htail⟩
          obtain ⟨rfl, rfl⟩ := List.append_inj hhead (hlo.trans hpad.symm)
          exact ⟨rfl, htail⟩
        · rintro ⟨hhead, htail⟩
          obtain ⟨rfl, rfl⟩ := List.append_inj hhead (hlo.trans hpad.symm)
          exact ⟨rfl, htail⟩

end NetProbes.Lib
