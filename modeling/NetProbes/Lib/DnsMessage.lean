/-
# `NetProbes.Lib.DnsMessage` — where the sections of a DNS message end

A message is read by its own header: so many questions, answers, authority and
additional records, one behind the other from offset 12 on.  A name is a run of
labels ended by the root or by a pointer to an earlier name of the message.
Reading gives the offset behind what was read, or `none` where something is
missing or malformed, and the message is `WellFormed` when the last section
ends exactly at its end.

    nameWalk      labels of 1 to 63 octets, at most 255 of them
    nameEnd       > start, and a name without pointer ends in a zero octet
    questionEnd   ≥ start + 5
    recordEnd     ≥ start + 11
    labelBytes    a label as it is written; labels written one behind the other
                  are found again
    labelsOf      the reader label by label; it reads exactly what was written
-/
import NetProbes.Lib.Bytes

namespace NetProbes.Lib

/-! ## Reading -/

/-- The walk over the labels of the name that starts at `start`, from offset
`i` on and with at most `n` octets of length still to read.  A pointer leads to
an offset behind the header and before the name itself. -/
def nameWalk (msg : List UInt8) (start : Nat) : Nat → Nat → Option Nat
  | 0, _ => none
  | n + 1, i =>
      if i < msg.length then
        let octet := (byteAt msg i).toNat
        if octet = 0 then some (i + 1)
        else if octet < 64 then nameWalk msg start n (i + 1 + octet)
        else
          let target := (octet - 192) * 256 + (byteAt msg (i + 1)).toNat
          if 192 ≤ octet ∧ i + 1 < msg.length ∧ 12 ≤ target ∧ target < start then some (i + 2)
          else none
      else none

/-- The end of the name at an offset. -/
def nameEnd (msg : List UInt8) (i : Nat) : Option Nat := nameWalk msg i 256 i

/-- The end of the question at an offset: name, type and class. -/
def questionEnd (msg : List UInt8) (i : Nat) : Option Nat :=
  (nameEnd msg i).bind fun e => if e + 4 ≤ msg.length then some (e + 4) else none

/-- The end of the record at an offset: name, type, class, time to live and
length of the data, and the data. -/
def recordEnd (msg : List UInt8) (i : Nat) : Option Nat :=
  (nameEnd msg i).bind fun e =>
    if e + 10 + net16 msg (e + 8) ≤ msg.length then some (e + 10 + net16 msg (e + 8)) else none

/-- The end of `n` things, one behind the other. -/
def sectionEnd (thing : Nat → Option Nat) : Nat → Nat → Option Nat
  | 0, i => some i
  | n + 1, i => (thing i).bind (sectionEnd thing n)

/-- The end of a message, by the counts of its header. -/
def messageEnd (msg : List UInt8) : Option Nat :=
  if 12 ≤ msg.length then do
    let i ← sectionEnd (questionEnd msg) (net16 msg 4) 12
    let i ← sectionEnd (recordEnd msg) (net16 msg 6) i
    let i ← sectionEnd (recordEnd msg) (net16 msg 8) i
    sectionEnd (recordEnd msg) (net16 msg 10) i
  else none

/-- All sections are there and end at the end of the message. -/
def WellFormed (msg : List UInt8) : Prop := messageEnd msg = some msg.length

instance decWellFormed (msg : List UInt8) : Decidable (WellFormed msg) :=
  inferInstanceAs (Decidable (_ = _))

/-! ## One step of the walk -/

section Walk
variable {msg : List UInt8} {start n i : Nat}

theorem nameWalk_root (start n : Nat) (hi : i < msg.length) (h : byteAt msg i = 0) :
    nameWalk msg start (n + 1) i = some (i + 1) := by
  simp [nameWalk, hi, h]

theorem nameWalk_label (start n : Nat) (hi : i < msg.length) (h₀ : (byteAt msg i).toNat ≠ 0)
    (h₁ : (byteAt msg i).toNat < 64) :
    nameWalk msg start (n + 1) i = nameWalk msg start n (i + 1 + (byteAt msg i).toNat) := by
  simp only [nameWalk, if_pos hi, if_neg h₀, if_pos h₁]

theorem nameWalk_pointer (hi : i + 1 < msg.length) (h : 192 ≤ (byteAt msg i).toNat)
    (hlow : 12 ≤ ((byteAt msg i).toNat - 192) * 256 + (byteAt msg (i + 1)).toNat)
    (hhigh : ((byteAt msg i).toNat - 192) * 256 + (byteAt msg (i + 1)).toNat < start) :
    nameWalk msg start (n + 1) i = some (i + 2) := by
  have hi' : i < msg.length := by omega
  have h₀ : (byteAt msg i).toNat ≠ 0 := by omega
  have h₁ : ¬ (byteAt msg i).toNat < 64 := by omega
  simp only [nameWalk, if_pos hi', if_neg h₀, if_neg h₁]
  exact if_pos ⟨h, hi, hlow, hhigh⟩

/-- A walk that ends stops at a zero octet, at a pointer, or goes on behind a
label. -/
theorem nameWalk_cases {e : Nat} (h : nameWalk msg start (n + 1) i = some e) :
    i < msg.length ∧
      ((byteAt msg i = 0 ∧ e = i + 1) ∨
       ((byteAt msg i).toNat ≠ 0 ∧ (byteAt msg i).toNat < 64 ∧
          nameWalk msg start n (i + 1 + (byteAt msg i).toNat) = some e) ∨
       (192 ≤ (byteAt msg i).toNat ∧ 12 < start ∧ e = i + 2)) := by
  simp only [nameWalk] at h
  split at h
  · rename_i hi
    refine ⟨hi, ?_⟩
    split at h
    · rename_i h₀
      exact Or.inl ⟨UInt8.toNat_inj.mp h₀, (Option.some.inj h).symm⟩
    · rename_i h₀
      split at h
      · rename_i h₁
        exact Or.inr (Or.inl ⟨h₀, h₁, h⟩)
      · split at h
        · rename_i hptr
          refine Or.inr (Or.inr ⟨hptr.1, ?_, (Option.some.inj h).symm⟩)
          omega
        · cases h
  · cases h

end Walk

/-! ## How far a reader gets -/

section Ends
variable {msg : List UInt8}

theorem nameWalk_gt {start e : Nat} : ∀ {n i : Nat}, nameWalk msg start n i = some e → i < e
  | n + 1, i, h => by
      obtain ⟨-, ⟨-, rfl⟩ | ⟨-, -, hrest⟩ | ⟨-, -, rfl⟩⟩ := nameWalk_cases h
      · omega
      · have := nameWalk_gt hrest
        omega
      · omega

/-- A label is passed as a whole. -/
theorem nameWalk_label_gt {start n i e : Nat} (h₀ : (byteAt msg i).toNat ≠ 0)
    (h₁ : (byteAt msg i).toNat < 64) (h : nameWalk msg start (n + 1) i = some e) :
    i + 1 + (byteAt msg i).toNat < e := by
  have hi := (nameWalk_cases h).1
  rw [nameWalk_label start n hi h₀ h₁] at h
  exact nameWalk_gt h

/-- A name that cannot hold a pointer ends in a zero octet. -/
theorem nameWalk_zero {start e : Nat} (hs : start ≤ 12) :
    ∀ {n i : Nat}, nameWalk msg start n i = some e → byteAt msg (e - 1) = 0 ∧ i ≤ e - 1
  | n + 1, i, h => by
      obtain ⟨-, ⟨hz, rfl⟩ | ⟨-, -, hrest⟩ | ⟨-, hlt, -⟩⟩ := nameWalk_cases h
      · exact ⟨hz, by omega⟩
      · obtain ⟨hz, hle⟩ := nameWalk_zero hs hrest
        exact ⟨hz, by omega⟩
      · omega

theorem questionEnd_ge {i e : Nat} (h : questionEnd msg i = some e) :
    i + 5 ≤ e ∧ e ≤ msg.length := by
  obtain ⟨e₁, h₁, h₂⟩ := Option.bind_eq_some_iff.mp h
  have hgt := nameWalk_gt h₁
  split at h₂
  · cases h₂
    omega
  · cases h₂

theorem recordEnd_ge {i e : Nat} (h : recordEnd msg i = some e) :
    i + 11 ≤ e ∧ e ≤ msg.length := by
  obtain ⟨e₁, h₁, h₂⟩ := Option.bind_eq_some_iff.mp h
  have hgt := nameWalk_gt h₁
  split at h₂
  · cases h₂
    omega
  · cases h₂

theorem sectionEnd_one (thing : Nat → Option Nat) (i : Nat) : sectionEnd thing 1 i = thing i := by
  simp only [sectionEnd, Option.bind_fun_some]

/-- A section grows with each of its members. -/
theorem sectionEnd_ge {thing : Nat → Option Nat} {c : Nat}
    (hthing : ∀ i e, thing i = some e → i + c ≤ e) :
    ∀ {n i e : Nat}, sectionEnd thing n i = some e → i + n * c ≤ e
  | 0, i, e, h => by
      cases h
      omega
  | n + 1, i, e, h => by
      obtain ⟨e₁, h₁, h₂⟩ := Option.bind_eq_some_iff.mp h
      have hfirst := hthing i e₁ h₁
      have hrest := sectionEnd_ge hthing h₂
      rw [Nat.succ_mul]
      omega

end Ends

/-! ## Names written as labels -/

/-- A label behind its length. -/
def labelBytes (l : List UInt8) : List UInt8 := UInt8.ofNat l.length :: l

/-- A list of labels is found again in its length-octet form. -/
theorem flatMap_labelBytes_inj :
    ∀ {ls ls' : List (List UInt8)}, (∀ l ∈ ls, l.length < 256) → (∀ l ∈ ls', l.length < 256) →
      ls.flatMap labelBytes = ls'.flatMap labelBytes → ls = ls'
  | [], [], _, _, _ => rfl
  | [], l' :: ls', _, _, h => by simp [labelBytes] at h
  | l :: ls, [], _, _, h => by simp [labelBytes] at h
  | l :: ls, l' :: ls', hls, hls', h => by
      simp only [List.flatMap_cons, labelBytes, List.cons_append, List.cons.injEq] at h
      obtain ⟨hoctet, hrest⟩ := h
      have hlen : l.length = l'.length := by
        have ho := congrArg UInt8.toNat hoctet
        have hl := hls l (by simp)
        have hl' := hls' l' (by simp)
        simp only [UInt8.toNat_ofNat'] at ho
        omega
      obtain ⟨rfl, htail⟩ := List.append_inj hrest hlen
      rw [flatMap_labelBytes_inj (fun x hx => hls x (List.mem_cons_of_mem _ hx))
        (fun x hx => hls' x (List.mem_cons_of_mem _ hx)) htail]

/-- The walk over labels that were written so ends behind their root.
Induction on the labels, the walked part growing in front. -/
theorem nameWalk_labels (start : Nat) (rest : List UInt8) :
    ∀ {ls : List (List UInt8)} {n : Nat} (front : List UInt8),
      (∀ l ∈ ls, 1 ≤ l.length ∧ l.length < 64) → ls.length < n →
      nameWalk (front ++ (ls.flatMap labelBytes ++ 0 :: rest)) start n front.length
        = some (front.length + (ls.flatMap labelBytes).length + 1)
  | [], n + 1, front, _, _ => by
      refine nameWalk_root start n ?_ ?_
      · simp
      · rw [byteAt_append_right (Nat.le_refl _), Nat.sub_self]
        rfl
  | l :: ls, n + 1, front, hls, hn => by
      have hl := hls l (by simp)
      have hoct : (byteAt (front ++ ((l :: ls).flatMap labelBytes ++ 0 :: rest)) front.length).toNat
          = l.length := by
        rw [byteAt_append_right (Nat.le_refl _), Nat.sub_self]
        show (UInt8.ofNat l.length).toNat = l.length
        rw [UInt8.toNat_ofNat']
        omega
      have hin : front.length < (front ++ ((l :: ls).flatMap labelBytes ++ 0 :: rest)).length := by
        simp
      have hfront : front ++ ((l :: ls).flatMap labelBytes ++ 0 :: rest)
          = (front ++ labelBytes l) ++ (ls.flatMap labelBytes ++ 0 :: rest) := by
        simp
      have hlen : (front ++ labelBytes l).length = front.length + 1 + l.length := by
        simp [labelBytes]
        omega
      have ih := nameWalk_labels start rest (n := n) (front ++ labelBytes l)
        (fun x hx => hls x (List.mem_cons_of_mem _ hx)) (by simpa using hn)
      rw [nameWalk_label start n hin (by omega) (by omega), hoct, ← hlen, hfront, ih, hlen]
      simp only [List.flatMap_cons, List.length_append, labelBytes, List.length_cons]
      exact congrArg some (by omega)

/-! ## The reader label by label -/

/-- The labels of a name up to its root, and what follows it, with at most `n`
octets of length to read.  A pointer is not a label. -/
def readLabels : Nat → List UInt8 → Option (List (List UInt8) × List UInt8)
  | 0, _ => none
  | _ + 1, [] => none
  | n + 1, b :: bs =>
      if b = 0 then some ([], bs)
      else if b.toNat < 64 ∧ b.toNat ≤ bs.length then
        (readLabels n (bs.drop b.toNat)).map fun r => (bs.take b.toNat :: r.1, r.2)
      else none

/-- The labels at the start of a byte string. -/
def labelsOf (bs : List UInt8) : Option (List (List UInt8) × List UInt8) :=
  readLabels bs.length bs

/-- What is read was written there: labels of 1 to 63 octets, the root, and the
rest. -/
theorem readLabels_some {n : Nat} {bs rest : List UInt8} {ls : List (List UInt8)}
    (h : readLabels n bs = some (ls, rest)) :
    bs = ls.flatMap labelBytes ++ 0 :: rest ∧ ∀ l ∈ ls, 1 ≤ l.length ∧ l.length ≤ 63 := by
  induction n generalizing bs ls with
  | zero => cases h
  | succ n ih =>
      match bs, h with
      | b :: bs, h =>
          simp only [readLabels] at h
          split at h
          · rename_i hb
            cases h
            exact ⟨by rw [hb]; rfl, fun l hl => absurd hl List.not_mem_nil⟩
          · split at h
            · rename_i hb hroom
              obtain ⟨⟨ls', rest'⟩, hread, heq⟩ := Option.map_eq_some_iff.mp h
              cases heq
              obtain ⟨hdrop, hls'⟩ := ih hread
              have hpos : b.toNat ≠ 0 := fun hz => hb (UInt8.toNat_inj.mp hz)
              have hlen : (bs.take b.toNat).length = b.toNat := by
                rw [List.length_take, Nat.min_eq_left hroom.2]
              constructor
              · rw [List.flatMap_cons, labelBytes, hlen, UInt8.ofNat_toNat, List.cons_append,
                  List.cons_append, List.append_assoc, ← hdrop, List.take_append_drop]
              · intro l hl
                rcases List.mem_cons.mp hl with rfl | hl
                · rw [hlen]
                  omega
                · exact hls' l hl
            · cases h

/-- What was written is read again. -/
theorem readLabels_flatMap {ls : List (List UInt8)} (rest : List UInt8) {n : Nat}
    (hls : ∀ l ∈ ls, 1 ≤ l.length ∧ l.length ≤ 63) (hn : ls.length < n) :
    readLabels n (ls.flatMap labelBytes ++ 0 :: rest) = some (ls, rest) := by
  induction ls generalizing n with
  | nil =>
      obtain ⟨m, rfl⟩ := Nat.exists_eq_succ_of_ne_zero (Nat.ne_of_gt hn)
      rfl
  | cons l ls ih =>
      obtain ⟨m, rfl⟩ := Nat.exists_eq_succ_of_ne_zero (Nat.ne_of_gt (Nat.zero_lt_of_lt hn))
      have hl := hls l List.mem_cons_self
      have hoct : (UInt8.ofNat l.length).toNat = l.length := by
        rw [UInt8.toNat_ofNat']
        omega
      have hne : UInt8.ofNat l.length ≠ 0 := by
        intro hz
        rw [hz] at hoct
        have hzero : (0 : UInt8).toNat = 0 := rfl
        omega
      have hroom : l.length < 64 ∧ l.length ≤ (l ++ (ls.flatMap labelBytes ++ 0 :: rest)).length := by
        rw [List.length_append]
        omega
      have ih' := ih (fun x hx => hls x (List.mem_cons_of_mem _ hx)) (Nat.lt_of_succ_lt_succ hn)
      simp only [List.flatMap_cons, labelBytes, List.cons_append, List.append_assoc, readLabels,
        if_neg hne, hoct, if_pos hroom, List.drop_left, List.take_left]
      rw [ih']
      rfl

theorem length_le_flatMap_labelBytes (ls : List (List UInt8)) :
    ls.length ≤ (ls.flatMap labelBytes).length := by
  induction ls with
  | nil => exact Nat.le_refl _
  | cons l ls ih =>
      simp only [List.flatMap_cons, List.length_append, labelBytes, List.length_cons] at ih ⊢
      omega

/-- The labels of a byte string are the labels it was written from. -/
theorem labelsOf_eq_some_iff {bs rest : List UInt8} {ls : List (List UInt8)} :
    labelsOf bs = some (ls, rest) ↔
      bs = ls.flatMap labelBytes ++ 0 :: rest ∧ ∀ l ∈ ls, 1 ≤ l.length ∧ l.length ≤ 63 := by
  constructor
  · intro h
    exact readLabels_some h
  · rintro ⟨rfl, hls⟩
    have hle := length_le_flatMap_labelBytes ls
    refine readLabels_flatMap rest hls ?_
    simp only [List.length_append, List.length_cons]
    omega

end NetProbes.Lib
