/-
# `NetProbes.TcpRtt.Bpf` — the probe of `tcprtt`

`tcprtt.bpf.c` runs on every segment an established TCP connection receives.
It takes the smoothed round trip time of the socket, if the socket passes the
filters, and adds it to a histogram: one for all, or one for each local or
remote address.

The filters, the key, the value and the slot are functions of the socket
(`accepts`, `keyOf`, `srttOf`, `slotOf`); `tcpRcv` is the whole probe where
nothing else runs at the same time.  `bpf_map_lookup_or_try_init` is taken as
returning the pointer to the map's value.
-/
import NetProbes.Lib.HashMap

namespace NetProbes.TcpRtt

open NetProbes.Lib

/-! ## Data -/

/-- The constants the user-space side sets. -/
structure Config where
  targLaddrHist : Bool
  targRaddrHist : Bool
  targShowExt : Bool
  targSport : UInt16
  targDport : UInt16
  targSaddr : UInt32
  targDaddr : UInt32
  targMs : Bool

/-- The fields of a socket that are read. -/
structure Sock where
  inetSport : UInt16
  skcDport : UInt16
  inetSaddr : UInt32
  skcDaddr : UInt32
  srttUs : UInt32
  deriving DecidableEq

/-- `struct hist`. -/
@[ext] structure Hist where
  latency : UInt64
  cnt : UInt64
  slots : Fin 27 → UInt32
  deriving DecidableEq

/-- The static `zero`. -/
def Hist.zero : Hist := ⟨0, 0, fun _ => 0⟩

/-- The map `hists`. -/
abbrev HistMap := HashMap UInt64 Hist 10240

/-! ## The slot of a value -/

/-- A comparison as a number. -/
def bit (b : Bool) : UInt32 := if b then 1 else 0

/-- `log2`. -/
def log2 (v : UInt32) : UInt64 :=
  let r := bit (v > 0xFFFF) <<< 4
  let v := v >>> r
  let shift := bit (v > 0xFF) <<< 3
  let v := v >>> shift
  let r := r ||| shift
  let shift := bit (v > 0xF) <<< 2
  let v := v >>> shift
  let r := r ||| shift
  let shift := bit (v > 0x3) <<< 1
  let v := v >>> shift
  let r := r ||| shift
  (r ||| (v >>> 1)).toUInt64

/-- `log2l`. -/
def log2l (v : UInt64) : UInt64 :=
  let hi := (v >>> 32).toUInt32
  if hi ≠ 0 then log2 hi + 32 else log2 v.toUInt32

/-- The slot of a value, the last one for all that are too large. -/
def slotOf (srtt : UInt32) : Fin 27 :=
  let slot := log2l srtt.toUInt64
  if h : slot ≥ 27 then ⟨27 - 1, by decide⟩
  else ⟨slot.toNat, by
    rw [ge_iff_le, UInt64.le_iff_toNat_le] at h
    exact Nat.lt_of_not_le h⟩

/-! ## The probe -/

/-- The socket passes the four filters. -/
def accepts (cfg : Config) (sk : Sock) : Bool :=
  !(cfg.targSport ≠ 0 && cfg.targSport ≠ sk.inetSport) &&
  !(cfg.targDport ≠ 0 && cfg.targDport ≠ sk.skcDport) &&
  !(cfg.targSaddr ≠ 0 && cfg.targSaddr ≠ sk.inetSaddr) &&
  !(cfg.targDaddr ≠ 0 && cfg.targDaddr ≠ sk.skcDaddr)

/-- The key of a socket's histogram. -/
def keyOf (cfg : Config) (sk : Sock) : UInt64 :=
  if cfg.targLaddrHist then sk.inetSaddr.toUInt64
  else if cfg.targRaddrHist then sk.skcDaddr.toUInt64
  else 0

/-- The value that is recorded. -/
def srttOf (cfg : Config) (sk : Sock) : UInt32 :=
  let srtt := sk.srttUs >>> 3
  if cfg.targMs then srtt / 1000 else srtt

/-- One more in a slot. -/
def Hist.addSlot (h : Hist) (slot : Fin 27) : Hist :=
  { h with slots := Function.update h.slots slot (h.slots slot + 1) }

/-- The value added to `latency`. -/
def Hist.addLatency (h : Hist) (srtt : UInt32) : Hist :=
  { h with latency := h.latency + srtt.toUInt64 }

/-- One more in `cnt`. -/
def Hist.addCnt (h : Hist) : Hist := { h with cnt := h.cnt + 1 }

/-- The atomic additions of the probe, one after the other. -/
def Hist.addSample (cfg : Config) (srtt : UInt32) (h : Hist) : Hist :=
  let h := h.addSlot (slotOf srtt)
  if cfg.targShowExt then (h.addLatency srtt).addCnt else h

/-- `tcp_rcv`. -/
def tcpRcv [HashOrder UInt64] (cfg : Config) (sk : Sock) (hists : HistMap) : HistMap :=
  if accepts cfg sk then
    let key := keyOf cfg sk
    match hists.lookupOrTryInit key Hist.zero with
    | none => hists
    | some hists => hists.modify key (Hist.addSample cfg (srttOf cfg sk))
  else hists

/-- A key is a 32-bit address, or 0. -/
theorem keyOf_lt (cfg : Config) (sk : Sock) : (keyOf cfg sk).toNat < 4294967296 := by
  have hs := sk.inetSaddr.toNat_lt
  have hd := sk.skcDaddr.toNat_lt
  simp only [keyOf]
  split
  · rw [UInt32.toNat_toUInt64]
    omega
  · split
    · rw [UInt32.toNat_toUInt64]
      omega
    · decide

end NetProbes.TcpRtt
