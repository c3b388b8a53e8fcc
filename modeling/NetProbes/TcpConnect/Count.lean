/-
# `NetProbes.TcpConnect.Count` — the table of `tcpconnect -c`

After SIGINT `print_count` of `tcpconnect.c` prints a table of the counted
flows.  Its two loops run over static arrays `keys` and `counts` of 8192
elements that nothing fills from the maps: each prints 8192 rows of zeros.

    countSession_reflects    the maps hold the right counts
    printCount_ne_expected   the table is never the table of the flows
-/
import NetProbes.TcpConnect.Probes

namespace NetProbes.TcpConnect

open NetProbes.Lib

/-! ## The table -/

/-- An address as `inet_ntop` gets it. -/
inductive Addr where
  | inet (a : UInt32)
  | inet6 (a : Buf 16)
  deriving DecidableEq

/-- A row: the two addresses, the port in host order, the count. -/
structure Row where
  laddr : Addr
  raddr : Addr
  rport : UInt16
  connects : Nat
  deriving DecidableEq

/-- The static variables of `print_count_ipv4` and `print_count_ipv6`, as they
are before `main` runs. -/
def staticArray {α : Type} (zero : α) : List α := List.replicate 8192 zero

theorem staticArray_length {α : Type} (zero : α) : (staticArray zero).length = 8192 :=
  List.length_replicate

/-- `print_count_ipv4`: the loop over both arrays.  The map is not read. -/
def printCountIpv4 (_map : HashMap Ipv4FlowKey UInt64 8192) : List Row :=
  let keys := staticArray (⟨0, 0, 0⟩ : Ipv4FlowKey)
  let counts := staticArray (0 : UInt64)
  (keys.zip counts).map fun (key, count) =>
    ⟨.inet key.saddr, .inet key.daddr, bswap16 key.dport, count.toNat⟩

/-- `print_count_ipv6`: the loop over both arrays.  The map is not read. -/
def printCountIpv6 (_map : HashMap Ipv6FlowKey UInt64 8192) : List Row :=
  let keys := staticArray (⟨Buf.zero 16, Buf.zero 16, 0⟩ : Ipv6FlowKey)
  let counts := staticArray (0 : UInt64)
  (keys.zip counts).map fun (key, count) =>
    ⟨.inet6 key.saddr, .inet6 key.daddr, bswap16 key.dport, count.toNat⟩

/-- `print_count` below its header line. -/
def printCount (m : Maps) : List Row := printCountIpv4 m.ipv4Count ++ printCountIpv6 m.ipv6Count

/-! ## The connects -/

/-- A connect: its thread and process, its socket and the socket's fields when
it returns, and the function it went through. -/
structure Connect where
  tid : UInt32
  task : Task
  sk : UInt64
  mem : UInt64 → SockCommon
  now : UInt64
  ipVer : IpVer

/-- The flow of a connect. -/
inductive Flow where
  | v4 (k : Ipv4FlowKey)
  | v6 (k : Ipv6FlowKey)
  deriving DecidableEq

def Connect.flow (c : Connect) : Flow :=
  let sk := c.mem c.sk
  match c.ipVer with
  | .v4 => .v4 ⟨sk.skcRcvSaddr, sk.skcDaddr, sk.skcDport⟩
  | .v6 => .v6 ⟨sk.skcV6RcvSaddr, sk.skcV6Daddr, sk.skcDport⟩

/-- The row a flow should have. -/
def Flow.row (connects : Nat) : Flow → Row
  | .v4 k => ⟨.inet k.saddr, .inet k.daddr, bswap16 k.dport, connects⟩
  | .v6 k => ⟨.inet6 k.saddr, .inet6 k.daddr, bswap16 k.dport, connects⟩

/-- The table of a sequence of flows: each flow once, with its number. -/
def expectedRows (fs : List Flow) : List Row :=
  fs.dedup.map fun f => f.row (fs.count f)

section Session
variable [HashOrder UInt32] [HashOrder Ipv4FlowKey] [HashOrder Ipv6FlowKey]

/-- The two probes of a connect that returns 0. -/
def handleConnect (cfg : Config) (m : Maps) (c : Connect) : Maps :=
  (exitTcpConnect cfg c.tid c.task c.mem c.now 0 c.ipVer
    (enterTcpConnect cfg c.tid c.task c.sk m)).1

/-- The maps after a sequence of connects. -/
def countSession (cfg : Config) (cs : List Connect) : Maps :=
  cs.foldl (handleConnect cfg) ⟨HashMap.empty, HashMap.empty, HashMap.empty, []⟩

end Session

/-! ## The maps are right -/

/-- The counter a flow belongs to. -/
def Flow.report : Flow → Report
  | .v4 k => .count4 k
  | .v6 k => .count6 k

section Maps
variable [HashOrder UInt32] [HashOrder Ipv4FlowKey] [HashOrder Ipv6FlowKey] {cfg : Config}

theorem handleConnect_reflects {m : Maps} {c : Connect} {rs : List Report}
    (hcount : cfg.doCount = true) (hpass : Passes cfg c.task)
    (hport : filterPort cfg (c.mem c.sk).skcDport = false) (hroom : NotFull m)
    (href : Reflects m rs) :
    Reflects (handleConnect cfg m c) (rs ++ [c.flow.report]) := by
  obtain ⟨sockets, henter, hlook⟩ := enterTcpConnect_eq cfg c.tid c.task c.sk hroom.1
  have hself : sockets.lookup c.tid = some c.sk := by
    rw [hlook, if_pos ⟨rfl, hpass⟩]
  have href' : Reflects { m with sockets := sockets } rs := ⟨href.events, href.ipv4, href.ipv6⟩
  have hroom' : CountersRoom { m with sockets := sockets } := hroom.2
  obtain ⟨-, -, hexit⟩ := exitTcpConnect_of_some cfg c.task c.mem c.now 0 c.ipVer hroom' href' hself
  have hwanted : wanted cfg c.task c.now (c.mem c.sk) 0 c.ipVer = some c.flow.report := by
    rw [wanted, if_pos ⟨rfl, hport⟩]
    cases hv : c.ipVer <;> simp [reportOf, hcount, Connect.flow, hv, Flow.report]
  rw [hwanted] at hexit
  rw [handleConnect, henter]
  exact hexit

/-- After any sequence of connects that are not filtered, while the maps have
room, every flow's counter is the number of its connects. -/
theorem countSession_reflects (hcount : cfg.doCount = true) {cs : List Connect}
    (hpass : ∀ c ∈ cs, Passes cfg c.task ∧ filterPort cfg (c.mem c.sk).skcDport = false)
    (hroom : ∀ cs', cs' <+: cs → NotFull (countSession cfg cs')) :
    Reflects (countSession cfg cs) (cs.map fun c => c.flow.report) := by
  induction cs using List.reverseRecOn with
  | nil => exact ⟨rfl, fun _ => rfl, fun _ => rfl⟩
  | append_singleton cs c ih =>
      have href := ih (fun c' hc' => hpass c' (by simp [hc']))
        (fun cs' hpre => hroom cs' (hpre.trans (List.prefix_append cs [c])))
      obtain ⟨htask, hport⟩ := hpass c (by simp)
      have hstep := handleConnect_reflects hcount htask hport
        (hroom cs (List.prefix_append cs [c])) href
      rw [countSession, List.foldl_append, List.map_append]
      exact hstep

end Maps

/-! ## The table is wrong -/

theorem connects_of_mem_printCount {m : Maps} {r : Row} (h : r ∈ printCount m) :
    r.connects = 0 := by
  rcases List.mem_append.mp h with h | h
  · obtain ⟨⟨key, count⟩, hmem, rfl⟩ := List.mem_map.mp h
    have hzero : count = 0 := List.eq_of_mem_replicate (List.of_mem_zip hmem).2
    simp [hzero]
  · obtain ⟨⟨key, count⟩, hmem, rfl⟩ := List.mem_map.mp h
    have hzero : count = 0 := List.eq_of_mem_replicate (List.of_mem_zip hmem).2
    simp [hzero]

theorem printCount_length (m : Maps) : (printCount m).length = 16384 := by
  simp only [printCount, printCountIpv4, printCountIpv6, List.length_append, List.length_map,
    List.length_zip, staticArray_length, Nat.min_self, Nat.reduceAdd]

/-- Every row that should be there has a count that is not zero. -/
theorem connects_of_mem_expectedRows {fs : List Flow} {r : Row} (h : r ∈ expectedRows fs) :
    r.connects ≠ 0 := by
  obtain ⟨f, hf, rfl⟩ := List.mem_map.mp h
  have hpos : 0 < fs.count f := List.count_pos_iff.mpr (List.mem_dedup.mp hf)
  cases f with
  | v4 k => exact hpos.ne'
  | v6 k => exact hpos.ne'

/-- The rows printed and the rows that should be there have none in common, and
there always are some printed. -/
theorem not_perm_expectedRows (m : Maps) (fs : List Flow) :
    ¬ (printCount m).Perm (expectedRows fs) := by
  intro hperm
  have hlen := printCount_length m
  cases hrows : printCount m with
  | nil =>
      rw [hrows] at hlen
      cases hlen
  | cons r rows =>
      have hmem : r ∈ printCount m := by simp [hrows]
      exact connects_of_mem_expectedRows (hperm.mem_iff.mp hmem) (connects_of_mem_printCount hmem)

/-- Whatever was connected, the printed table is not the table of the flows. -/
theorem printCount_ne_expected [HashOrder UInt32] [HashOrder Ipv4FlowKey] [HashOrder Ipv6FlowKey]
    (cfg : Config) (cs : List Connect) :
    ¬ (printCount (countSession cfg cs)).Perm (expectedRows (cs.map Connect.flow)) :=
  not_perm_expectedRows _ _

/-- One connect from 10.0.0.1 to 192.0.2.1, port 443. -/
def sampleConnect : Connect where
  tid := 7
  task := ⟨70, 0, Buf.zero 16⟩
  sk := 1
  mem := fun _ => ⟨le32 10 0 0 1, le32 192 0 2 1, Buf.zero 16, Buf.zero 16, 47873⟩
  now := 1000
  ipVer := .v4

/-- No filters, counting. -/
def countConfig : Config where
  filterPorts := ⟨List.replicate 64 0, rfl⟩
  filterPortsLen := 0
  len_le := by decide
  filterUid := 0xFFFFFFFF
  filterPid := 0
  doCount := true

/-- One connect, not filtered, should give one row with the count 1. -/
theorem printCount_sampleConnect :
    expectedRows [sampleConnect.flow]
      = [⟨.inet (le32 10 0 0 1), .inet (le32 192 0 2 1), 443, 1⟩] ∧
    ¬ ∀ (_ : HashOrder UInt32) (_ : HashOrder Ipv4FlowKey) (_ : HashOrder Ipv6FlowKey)
      (cfg : Config) (cs : List Connect), cfg.doCount = true →
      (∀ c ∈ cs, Passes cfg c.task ∧ filterPort cfg (c.mem c.sk).skcDport = false) →
      (cs.map Connect.flow).dedup.length ≤ 8192 →
      (printCount (countSession cfg cs)).Perm (expectedRows (cs.map Connect.flow)) := by
  refine ⟨by decide, fun hall => ?_⟩
  have hpass : ∀ c ∈ [sampleConnect], Passes countConfig c.task ∧
      filterPort countConfig (c.mem c.sk).skcDport = false := by
    intro c hc
    obtain rfl := List.mem_singleton.mp hc
    exact ⟨⟨Or.inl rfl, Or.inl rfl⟩, rfl⟩
  exact not_perm_expectedRows _ _ (hall ⟨fun _ => 0⟩ ⟨fun _ => 0⟩ ⟨fun _ => 0⟩ countConfig
    [sampleConnect] rfl hpass (by simp))

end NetProbes.TcpConnect
