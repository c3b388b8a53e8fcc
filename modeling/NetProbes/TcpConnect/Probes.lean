/-
# `NetProbes.TcpConnect.Probes` — what each probe does to the maps

One lemma for each probe, in terms of lookups:

    enterTcpConnect_eq       stores the thread's socket if its process passes
                             the filters, nothing else
    exitTcpConnect_of_some   reports the stored socket if it is `wanted`, and
                             forgets it
    exitTcpConnect_of_none   does nothing

The reports made so far determine events and counters (`Reflects`).
-/
import NetProbes.TcpConnect.Bpf

namespace NetProbes.TcpConnect

open NetProbes.Lib

/-! ## Filters and reports -/

/-- The process passes the filters on process and user. -/
def Passes (cfg : Config) (task : Task) : Prop :=
  (cfg.filterPid = 0 ∨ task.pid = cfg.filterPid) ∧
    (cfg.filterUid = 0xFFFFFFFF ∨ task.uid = cfg.filterUid)

instance decPasses (cfg : Config) (task : Task) : Decidable (Passes cfg task) :=
  inferInstanceAs (Decidable (_ ∧ _))

/-- The report of a connection with the given socket. -/
def reportOf (cfg : Config) (task : Task) (now : UInt64) (sk : SockCommon) : IpVer → Report
  | .v4 => if cfg.doCount then .count4 ⟨sk.skcRcvSaddr, sk.skcDaddr, sk.skcDport⟩
      else .event (eventV4 task now sk sk.skcDport)
  | .v6 => if cfg.doCount then .count6 ⟨sk.skcV6RcvSaddr, sk.skcV6Daddr, sk.skcDport⟩
      else .event (eventV6 task now sk sk.skcDport)

/-- The event of a report. -/
def Report.event? : Report → Option Event
  | .event e => some e
  | _ => none

/-- The value of a counter that was increased `n` times. -/
def tally (n : Nat) : Option UInt64 := if n = 0 then none else some (UInt64.ofNat n)

/-- Events and counters are what the reports made them. -/
structure Reflects (m : Maps) (rs : List Report) : Prop where
  events : m.events = rs.filterMap Report.event?
  ipv4 : ∀ k, m.ipv4Count.lookup k = tally (rs.count (.count4 k))
  ipv6 : ∀ k, m.ipv6Count.lookup k = tally (rs.count (.count6 k))

/-- The counters have room for a flow. -/
def CountersRoom (m : Maps) : Prop :=
  m.ipv4Count.entries.length < 8192 ∧ m.ipv6Count.entries.length < 8192

/-- None of the maps is full. -/
def NotFull (m : Maps) : Prop := m.sockets.entries.length < 8192 ∧ CountersRoom m

instance decNotFull (m : Maps) : Decidable (NotFull m) :=
  inferInstanceAs (Decidable (_ ∧ _ ∧ _))

theorem tally_succ (n : Nat) : tally (n + 1) = some ((tally n).getD 0 + 1) := by
  have hsum : (UInt64.ofNat (n + 1)) = UInt64.ofNat n + 1 := by simp
  by_cases hn : n = 0
  · subst hn
    rfl
  · simp [tally, hn, hsum]

/-- With room in the map a flow's counter goes up by one. -/
theorem countFlow_ok {K : Type} [DecidableEq K] [HashOrder K] {m : HashMap K UInt64 8192} (key : K)
    (hroom : m.entries.length < 8192) :
    ∃ m', countFlow m key = some m' ∧
      ∀ k, m'.lookup k = if k = key then some ((m.lookup key).getD 0 + 1) else m.lookup k := by
  obtain ⟨m₁, hinit, hlook⟩ := HashMap.lookupOrTryInit_ok key 0 (Or.inl hroom)
  refine ⟨_, by rw [countFlow, hinit, Option.map_some], fun k => ?_⟩
  rw [HashMap.lookup_modify, hlook]
  by_cases hk : k = key
  · simp [hk]
  · simp [hk]

/-- A counter that went up by one, one report further. -/
theorem tally_snoc {K : Type} [DecidableEq K] {m c : HashMap K UInt64 8192} {key : K}
    {rs : List Report} {tag : K → Report} (htag : Function.Injective tag)
    (h : ∀ k, m.lookup k = tally (rs.count (tag k)))
    (hc : ∀ k, c.lookup k = if k = key then some ((m.lookup key).getD 0 + 1) else m.lookup k)
    (k : K) : c.lookup k = tally ((rs ++ [tag key]).count (tag k)) := by
  rw [List.count_append, List.count_singleton, hc, h, h]
  by_cases hk : k = key
  · simp [hk, tally_succ]
  · have hne : ¬ tag key = tag k := fun heq => hk (htag heq).symm
    simp [hk, hne]

theorem Reflects.event {m : Maps} {rs : List Report} (h : Reflects m rs) (e : Event) :
    Reflects { m with events := m.events ++ [e] } (rs ++ [.event e]) where
  events := by
    rw [List.filterMap_append, ← h.events]
    rfl
  ipv4 k := by
    rw [List.count_append, List.count_singleton]
    simpa using h.ipv4 k
  ipv6 k := by
    rw [List.count_append, List.count_singleton]
    simpa using h.ipv6 k

theorem Reflects.count4 {m : Maps} {rs : List Report} {key : Ipv4FlowKey}
    {c : HashMap Ipv4FlowKey UInt64 8192} (h : Reflects m rs)
    (hc : ∀ k, c.lookup k = if k = key then some ((m.ipv4Count.lookup key).getD 0 + 1)
      else m.ipv4Count.lookup k) :
    Reflects { m with ipv4Count := c } (rs ++ [.count4 key]) where
  events := by
    rw [List.filterMap_append, ← h.events]
    exact (List.append_nil _).symm
  ipv4 := tally_snoc (fun _ _ heq => Report.count4.inj heq) h.ipv4 hc
  ipv6 k := by
    rw [List.count_append, List.count_singleton]
    simpa using h.ipv6 k

theorem Reflects.count6 {m : Maps} {rs : List Report} {key : Ipv6FlowKey}
    {c : HashMap Ipv6FlowKey UInt64 8192} (h : Reflects m rs)
    (hc : ∀ k, c.lookup k = if k = key then some ((m.ipv6Count.lookup key).getD 0 + 1)
      else m.ipv6Count.lookup k) :
    Reflects { m with ipv6Count := c } (rs ++ [.count6 key]) where
  events := by
    rw [List.filterMap_append, ← h.events]
    exact (List.append_nil _).symm
  ipv4 k := by
    rw [List.count_append, List.count_singleton]
    simpa using h.ipv4 k
  ipv6 := tally_snoc (fun _ _ heq => Report.count6.inj heq) h.ipv6 hc

/-! ## The probes -/

section Specs
variable [HashOrder UInt32] [HashOrder Ipv4FlowKey] [HashOrder Ipv6FlowKey]

omit [HashOrder Ipv4FlowKey] [HashOrder Ipv6FlowKey] in
/-- An entry probe stores the socket of a process that passes the filters. -/
theorem enterTcpConnect_eq (cfg : Config) (tid : UInt32) (task : Task) (sk : UInt64) {m : Maps}
    (hroom : m.sockets.entries.length < 8192) :
    ∃ sockets, enterTcpConnect cfg tid task sk m = { m with sockets := sockets } ∧
      ∀ t, sockets.lookup t = if t = tid ∧ Passes cfg task then some sk else m.sockets.lookup t := by
  by_cases hpass : Passes cfg task
  · have hpid : ¬ (cfg.filterPid ≠ 0 ∧ task.pid ≠ cfg.filterPid) := by
      rintro ⟨h₀, h₁⟩
      exact hpass.1.elim h₀ h₁
    have huid : ¬ (cfg.filterUid ≠ 0xFFFFFFFF ∧ task.uid ≠ cfg.filterUid) := by
      rintro ⟨h₀, h₁⟩
      exact hpass.2.elim h₀ h₁
    obtain ⟨sockets, hup⟩ := HashMap.update_any_ok (k := tid) (v := sk) (Or.inl hroom)
    refine ⟨sockets, by rw [enterTcpConnect, if_neg hpid, if_neg huid, hup], fun t => ?_⟩
    rw [HashMap.lookup_update hup]
    simp [hpass]
  · refine ⟨m.sockets, ?_, fun t => by simp [hpass]⟩
    rw [enterTcpConnect]
    split
    · rfl
    · rename_i hpid
      split
      · rfl
      · rename_i huid
        exfalso
        refine hpass ⟨?_, ?_⟩
        · by_cases h₀ : cfg.filterPid = 0
          · exact Or.inl h₀
          · exact Or.inr (not_not.mp fun h₁ => hpid ⟨h₀, h₁⟩)
        · by_cases h₀ : cfg.filterUid = 0xFFFFFFFF
          · exact Or.inl h₀
          · exact Or.inr (not_not.mp fun h₁ => huid ⟨h₀, h₁⟩)

/-- A connect that returned 0 and whose port is not left out is to be reported. -/
def wanted (cfg : Config) (task : Task) (now : UInt64) (sk : SockCommon) (ret : Int)
    (ipVer : IpVer) : Option Report :=
  if ret = 0 ∧ filterPort cfg sk.skcDport = false then some (reportOf cfg task now sk ipVer)
  else none

omit [HashOrder UInt32] in
/-- What is reported, with room in the maps, and that it is reflected. -/
theorem report_eq (cfg : Config) (task : Task) (now : UInt64) (sk : SockCommon) (ret : Int)
    (ipVer : IpVer) {m : Maps} {rs : List Report} (hroom : CountersRoom m) (href : Reflects m rs) :
    (report cfg task now sk ret ipVer m).1.sockets = m.sockets ∧
      (report cfg task now sk ret ipVer m).2 = wanted cfg task now sk ret ipVer ∧
      Reflects (report cfg task now sk ret ipVer m).1
        (rs ++ (wanted cfg task now sk ret ipVer).toList) := by
  have hnil : Reflects m (rs ++ Option.toList none) := by simpa using href
  by_cases hret : ret = 0
  swap
  · simp only [report, wanted, ne_eq, hret, not_false_eq_true, if_true, false_and, if_false,
      true_and]
    exact hnil
  cases hport : filterPort cfg sk.skcDport with
  | true =>
      simp only [report, wanted, ne_eq, hret, not_true, if_false, hport, if_true, true_and,
        Bool.true_eq_false]
      exact hnil
  | false =>
      simp only [report, wanted, ne_eq, hret, not_true, if_false, hport, true_and,
        Bool.false_eq_true, if_true]
      cases hcount : cfg.doCount with
      | false =>
          cases ipVer with
          | v4 =>
              simp only [reportOf, hcount, Bool.false_eq_true, if_false, traceV4, output,
                true_and]
              exact href.event _
          | v6 =>
              simp only [reportOf, hcount, Bool.false_eq_true, if_false, traceV6, output,
                true_and]
              exact href.event _
      | true =>
          cases ipVer with
          | v4 =>
              obtain ⟨c, hc, hlook⟩ := countFlow_ok
                (⟨sk.skcRcvSaddr, sk.skcDaddr, sk.skcDport⟩ : Ipv4FlowKey) hroom.1
              simp only [reportOf, hcount, if_true, countV4, hc, true_and]
              exact href.count4 hlook
          | v6 =>
              obtain ⟨c, hc, hlook⟩ := countFlow_ok
                (⟨sk.skcV6RcvSaddr, sk.skcV6Daddr, sk.skcDport⟩ : Ipv6FlowKey) hroom.2
              simp only [reportOf, hcount, if_true, countV6, hc, true_and]
              exact href.count6 hlook

omit [HashOrder UInt32] in
/-- A return probe reports the socket its thread stored, and forgets it. -/
theorem exitTcpConnect_of_some (cfg : Config) {tid : UInt32} (task : Task)
    (mem : UInt64 → SockCommon) (now : UInt64) (ret : Int) (ipVer : IpVer) {m : Maps} {sk : UInt64}
    {rs : List Report} (hroom : CountersRoom m) (href : Reflects m rs)
    (hsk : m.sockets.lookup tid = some sk) :
    (exitTcpConnect cfg tid task mem now ret ipVer m).2 = wanted cfg task now (mem sk) ret ipVer ∧
      (∀ t, (exitTcpConnect cfg tid task mem now ret ipVer m).1.sockets.lookup t
        = if t = tid then none else m.sockets.lookup t) ∧
      Reflects (exitTcpConnect cfg tid task mem now ret ipVer m).1
        (rs ++ (wanted cfg task now (mem sk) ret ipVer).toList) := by
  obtain ⟨hsock, hrep, href'⟩ := report_eq cfg task now (mem sk) ret ipVer hroom href
  have hdel : (report cfg task now (mem sk) ret ipVer m).1.sockets.delete tid
      = .ok (m.sockets.erase tid) := by
    rw [hsock]
    exact HashMap.delete_eq ⟨sk, hsk⟩
  simp only [exitTcpConnect, hsk, hdel]
  refine ⟨hrep, fun t => ?_, ⟨href'.events, href'.ipv4, href'.ipv6⟩⟩
  by_cases ht : t = tid
  · rw [if_pos ht, ht, HashMap.lookup_erase_self]
  · rw [if_neg ht, HashMap.lookup_erase_of_ne ht]

omit [HashOrder UInt32] in
theorem exitTcpConnect_of_none {cfg : Config} {tid : UInt32} {task : Task}
    {mem : UInt64 → SockCommon} {now : UInt64} {ret : Int} {ipVer : IpVer} {m : Maps}
    (hsk : m.sockets.lookup tid = none) :
    exitTcpConnect cfg tid task mem now ret ipVer m = (m, none) := by
  simp only [exitTcpConnect, hsk]

end Specs

end NetProbes.TcpConnect
