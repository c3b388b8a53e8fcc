/-
# `NetProbes.TcpConnect.Report` — each connect is reported exactly once

Any number of threads enter and leave `tcp_v4_connect` and `tcp_v6_connect`,
one thread's probes well nested: a `tcp_v6_connect` may call `tcp_v4_connect`
on its own socket and then returns what that returned.  The outermost calls are
the connects; each gets a number when it starts, and a report belongs to the
connect its thread is in (`log`).

    sockets tid      holds the socket of the thread's connect exactly while no
                     return probe of it has run, and its process is not filtered
    log              has for each connect what it should have: one report if it
                     returned 0, passed the filters and its port is not left
                     out, else none

What a report has to say of its connect is stated field by field (`Report.Of`),
from the socket, the thread and the clock.  `connect_reported_once` says all
this for every run, together with the maps and the perf output being what the
log says, and the connects being those of the run's firings.
-/
import NetProbes.TcpConnect.Probes
import NetProbes.Lib.Run

namespace NetProbes.TcpConnect

open NetProbes.Lib

/-! ## The system -/

/-- An outermost call: its number, its socket and its thread's process. -/
structure Call where
  id : Nat
  sk : UInt64
  task : Task

/-- A connect with its result: what was returned, by which function, and the
socket and the clock at that moment.  Of a `tcp_v6_connect` that called
`tcp_v4_connect` it is the return of the inner call. -/
structure Returned where
  call : Call
  ret : Int
  ipVer : IpVer
  sock : SockCommon
  now : UInt64

/-- Where a thread is. -/
inductive Phase where
  | idle
  | inV4 (c : Call)
  | inV6 (c : Call)
  | nested (c : Call)
  | innerReturned (d : Returned)

/-- The probes' state and the threads; `nextId`, `log` and `returned` record
which reports and results belong to which connect. -/
structure System where
  maps : Maps
  phase : UInt32 → Phase
  nextId : Nat
  log : List (Nat × Report)
  returned : List Returned

/-- The firings of the probes.  A return comes with the sockets' fields and the
clock at that time. -/
inductive Firing where
  | enterV4 (tid : UInt32) (sk : UInt64) (task : Task)
  | enterV6 (tid : UInt32) (sk : UInt64) (task : Task)
  | enterInner (tid : UInt32)
  | returnV4 (tid : UInt32) (ret : Int) (mem : UInt64 → SockCommon) (now : UInt64)
  | returnV6 (tid : UInt32) (ret : Int) (mem : UInt64 → SockCommon) (now : UInt64)

section Model
variable [HashOrder UInt32] [HashOrder Ipv4FlowKey] [HashOrder Ipv6FlowKey]

/-- A return probe of the connect `c`; its report goes into the log. -/
def System.exit (cfg : Config) (s : System) (tid : UInt32) (c : Call) (mem : UInt64 → SockCommon)
    (now : UInt64) (ret : Int) (ipVer : IpVer) : System :=
  let (m, r) := exitTcpConnect cfg tid c.task mem now ret ipVer s.maps
  { s with maps := m, log := s.log ++ r.toList.map fun r => (c.id, r) }

/-- One firing; `none` where the thread is not at such a point. -/
def connectStep (cfg : Config) (s : System) : Firing → Option System
  | .enterV4 tid sk task =>
      match s.phase tid with
      | .idle => some { s with
          maps := enterTcpConnect cfg tid task sk s.maps
          phase := Function.update s.phase tid (.inV4 ⟨s.nextId, sk, task⟩)
          nextId := s.nextId + 1 }
      | _ => none
  | .enterV6 tid sk task =>
      match s.phase tid with
      | .idle => some { s with
          maps := enterTcpConnect cfg tid task sk s.maps
          phase := Function.update s.phase tid (.inV6 ⟨s.nextId, sk, task⟩)
          nextId := s.nextId + 1 }
      | _ => none
  | .enterInner tid =>
      match s.phase tid with
      | .inV6 c => some { s with
          maps := enterTcpConnect cfg tid c.task c.sk s.maps
          phase := Function.update s.phase tid (.nested c) }
      | _ => none
  | .returnV4 tid ret mem now =>
      match s.phase tid with
      | .inV4 c => some { s.exit cfg tid c mem now ret .v4 with
          phase := Function.update s.phase tid .idle
          returned := s.returned ++ [⟨c, ret, .v4, mem c.sk, now⟩] }
      | .nested c => some { s.exit cfg tid c mem now ret .v4 with
          phase := Function.update s.phase tid (.innerReturned ⟨c, ret, .v4, mem c.sk, now⟩) }
      | _ => none
  | .returnV6 tid ret mem now =>
      match s.phase tid with
      | .inV6 c => some { s.exit cfg tid c mem now ret .v6 with
          phase := Function.update s.phase tid .idle
          returned := s.returned ++ [⟨c, ret, .v6, mem c.sk, now⟩] }
      | .innerReturned d =>
          -- the outer call returns the inner result
          if ret = d.ret then some { s.exit cfg tid d.call mem now ret .v6 with
            phase := Function.update s.phase tid .idle
            returned := s.returned ++ [d] }
          else none
      | _ => none

/-- The firings by the phase their thread is in. -/
inductive ConnectMove (cfg : Config) (s : System) : Firing → System → Prop
  | enterV4 {tid : UInt32} {sk : UInt64} {task : Task} : s.phase tid = .idle →
      ConnectMove cfg s (.enterV4 tid sk task) { s with
        maps := enterTcpConnect cfg tid task sk s.maps
        phase := Function.update s.phase tid (.inV4 ⟨s.nextId, sk, task⟩)
        nextId := s.nextId + 1 }
  | enterV6 {tid : UInt32} {sk : UInt64} {task : Task} : s.phase tid = .idle →
      ConnectMove cfg s (.enterV6 tid sk task) { s with
        maps := enterTcpConnect cfg tid task sk s.maps
        phase := Function.update s.phase tid (.inV6 ⟨s.nextId, sk, task⟩)
        nextId := s.nextId + 1 }
  | enterInner {tid : UInt32} {c : Call} : s.phase tid = .inV6 c →
      ConnectMove cfg s (.enterInner tid) { s with
        maps := enterTcpConnect cfg tid c.task c.sk s.maps
        phase := Function.update s.phase tid (.nested c) }
  | returnV4 {tid : UInt32} {ret : Int} {mem : UInt64 → SockCommon} {now : UInt64} {c : Call} :
      s.phase tid = .inV4 c →
      ConnectMove cfg s (.returnV4 tid ret mem now) { s.exit cfg tid c mem now ret .v4 with
        phase := Function.update s.phase tid .idle
        returned := s.returned ++ [⟨c, ret, .v4, mem c.sk, now⟩] }
  | returnInner {tid : UInt32} {ret : Int} {mem : UInt64 → SockCommon} {now : UInt64} {c : Call} :
      s.phase tid = .nested c →
      ConnectMove cfg s (.returnV4 tid ret mem now) { s.exit cfg tid c mem now ret .v4 with
        phase := Function.update s.phase tid (.innerReturned ⟨c, ret, .v4, mem c.sk, now⟩) }
  | returnV6 {tid : UInt32} {ret : Int} {mem : UInt64 → SockCommon} {now : UInt64} {c : Call} :
      s.phase tid = .inV6 c →
      ConnectMove cfg s (.returnV6 tid ret mem now) { s.exit cfg tid c mem now ret .v6 with
        phase := Function.update s.phase tid .idle
        returned := s.returned ++ [⟨c, ret, .v6, mem c.sk, now⟩] }
  | returnOuter {tid : UInt32} {mem : UInt64 → SockCommon} {now : UInt64} {d : Returned} :
      s.phase tid = .innerReturned d →
      ConnectMove cfg s (.returnV6 tid d.ret mem now) { s.exit cfg tid d.call mem now d.ret .v6 with
        phase := Function.update s.phase tid .idle
        returned := s.returned ++ [d] }

theorem connectStep_move {cfg : Config} {s s' : System} {a : Firing}
    (h : connectStep cfg s a = some s') : ConnectMove cfg s a s' := by
  cases a with
  | enterV4 tid sk task =>
      simp only [connectStep] at h
      split at h
      · cases h
        exact .enterV4 ‹_›
      · cases h
  | enterV6 tid sk task =>
      simp only [connectStep] at h
      split at h
      · cases h
        exact .enterV6 ‹_›
      · cases h
  | enterInner tid =>
      simp only [connectStep] at h
      split at h
      · cases h
        exact .enterInner ‹_›
      · cases h
  | returnV4 tid ret mem now =>
      simp only [connectStep] at h
      split at h
      · cases h
        exact .returnV4 ‹_›
      · cases h
        exact .returnInner ‹_›
      · cases h
  | returnV6 tid ret mem now =>
      simp only [connectStep] at h
      split at h
      · cases h
        exact .returnV6 ‹_›
      · split at h
        · rename_i hret
          cases h
          exact hret ▸ .returnOuter ‹_›
        · cases h
      · cases h

end Model

/-- Empty maps, every thread outside. -/
def System.init : System where
  maps := ⟨HashMap.empty, HashMap.empty, HashMap.empty, []⟩
  phase := fun _ => .idle
  nextId := 0
  log := []
  returned := []

/-! ## What should be reported -/

/-- The event of a connect, field by field. -/
structure Event.Of (d : Returned) (e : Event) : Prop where
  v4 : d.ipVer = .v4 → e.af = 2 ∧ e.saddr.1.take 4 = bytes32 d.sock.skcRcvSaddr ∧
    e.daddr.1.take 4 = bytes32 d.sock.skcDaddr
  v6 : d.ipVer = .v6 → e.af = 10 ∧ e.saddr = d.sock.skcV6RcvSaddr ∧ e.daddr = d.sock.skcV6Daddr
  dport : e.dport = d.sock.skcDport
  pid : e.pid = d.call.task.pid
  uid : e.uid = d.call.task.uid
  task : e.task = d.call.task.comm
  tsUs : e.tsUs.toNat = d.now.toNat / 1000

/-- The report has its connect's addresses and port, in the form asked for. -/
def Report.Of (cfg : Config) (d : Returned) : Report → Prop
  | .event e => cfg.doCount = false ∧ e.Of d
  | .count4 k => cfg.doCount = true ∧ d.ipVer = .v4 ∧ k.saddr = d.sock.skcRcvSaddr ∧
      k.daddr = d.sock.skcDaddr ∧ k.dport = d.sock.skcDport
  | .count6 k => cfg.doCount = true ∧ d.ipVer = .v6 ∧ k.saddr = d.sock.skcV6RcvSaddr ∧
      k.daddr = d.sock.skcV6Daddr ∧ k.dport = d.sock.skcDport

theorem reportOf_of (cfg : Config) (d : Returned) :
    (reportOf cfg d.call.task d.now d.sock d.ipVer).Of cfg d := by
  have hus : (d.now / 1000).toNat = d.now.toNat / 1000 := UInt64.toNat_div _ _
  have hfront : ∀ w : UInt32, (padded 16 (bytes32 w)).1.take 4 = bytes32 w :=
    fun w => by rw [padded_val (by rw [bytes32_length]; decide), List.take_left' (bytes32_length w)]
  cases hcount : cfg.doCount with
  | false =>
      cases hver : d.ipVer with
      | v4 =>
          simp only [reportOf, hcount, Bool.false_eq_true, if_false]
          exact ⟨hcount, fun _ => ⟨rfl, hfront _, hfront _⟩, fun h => by simp [hver] at h, rfl, rfl,
            rfl, rfl, hus⟩
      | v6 =>
          simp only [reportOf, hcount, Bool.false_eq_true, if_false]
          exact ⟨hcount, fun h => by simp [hver] at h, fun _ => ⟨rfl, rfl, rfl⟩, rfl, rfl, rfl, rfl,
            hus⟩
  | true =>
      cases hver : d.ipVer with
      | v4 =>
          simp only [reportOf, hcount, if_true]
          exact ⟨hcount, hver, rfl, rfl, rfl⟩
      | v6 =>
          simp only [reportOf, hcount, if_true]
          exact ⟨hcount, hver, rfl, rfl, rfl⟩

/-- The report a returned connect should have. -/
def Returned.expected (cfg : Config) (d : Returned) : Option Report :=
  if Passes cfg d.call.task then wanted cfg d.call.task d.now d.sock d.ret d.ipVer else none

theorem Returned.expected_toList (cfg : Config) (d : Returned) : (d.expected cfg).toList =
    if d.ret = 0 ∧ Passes cfg d.call.task ∧ filterPort cfg d.sock.skcDport = false then
      [reportOf cfg d.call.task d.now d.sock d.ipVer] else [] := by
  by_cases hpass : Passes cfg d.call.task
  · by_cases hwant : d.ret = 0 ∧ filterPort cfg d.sock.skcDport = false
    · simp [Returned.expected, wanted, hpass, hwant]
    · rw [Returned.expected, if_pos hpass, wanted, if_neg hwant,
        if_neg fun hall => hwant ⟨hall.1, hall.2.2⟩]
      rfl
  · rw [Returned.expected, if_neg hpass, if_neg fun hall => hpass hall.2.1]
    rfl

/-- The reports of one connect. -/
def reportsOf (log : List (Nat × Report)) (id : Nat) : List Report :=
  (log.filter fun e => decide (e.1 = id)).map Prod.snd

/-- The connect a thread is in. -/
def Phase.call : Phase → Option Call
  | .idle => none
  | .inV4 c => some c
  | .inV6 c => some c
  | .nested c => some c
  | .innerReturned d => some d.call

/-- The socket stored for a thread. -/
def Phase.socket (cfg : Config) : Phase → Option UInt64
  | .inV4 c => if Passes cfg c.task then some c.sk else none
  | .inV6 c => if Passes cfg c.task then some c.sk else none
  | .nested c => if Passes cfg c.task then some c.sk else none
  | _ => none

/-- The reports a connect has while it is under way. -/
def Phase.due (cfg : Config) : Phase → List Report
  | .innerReturned d => (d.expected cfg).toList
  | _ => []

theorem reportsOf_append (log : List (Nat × Report)) (i id : Nat) (rs : List Report) :
    reportsOf (log ++ rs.map fun r => (i, r)) id
      = reportsOf log id ++ if i = id then rs else [] := by
  by_cases hi : i = id
  · simp [reportsOf, List.filter_map, Function.comp_def, hi]
  · simp [reportsOf, List.filter_map, Function.comp_def, hi]

theorem map_snd_append (log : List (Nat × Report)) (i : Nat) (rs : List Report) :
    (log ++ rs.map fun r => (i, r)).map Prod.snd = log.map Prod.snd ++ rs := by
  simp [List.map_append, List.map_map, Function.comp_def]

/-! ## The invariant -/

/-- The stored sockets are those of the threads, numbers tell connects apart,
and each connect has the reports it should have by now. -/
structure Inv (cfg : Config) (s : System) : Prop where
  sock : ∀ t, s.maps.sockets.lookup t = (s.phase t).socket cfg
  reflects : Reflects s.maps (s.log.map Prod.snd)
  fresh : ∀ t c, (s.phase t).call = some c → c.id < s.nextId
  freshReturned : ∀ d ∈ s.returned, d.call.id < s.nextId
  inj : ∀ t t' c c', (s.phase t).call = some c → (s.phase t').call = some c' → c.id = c'.id →
    t = t'
  apart : ∀ t c, (s.phase t).call = some c → ∀ d ∈ s.returned, d.call.id ≠ c.id
  nodup : (s.returned.map fun d => d.call.id).Nodup
  done : ∀ d ∈ s.returned, reportsOf s.log d.call.id = (d.expected cfg).toList
  due : ∀ t c, (s.phase t).call = some c → reportsOf s.log c.id = (s.phase t).due cfg
  logged : ∀ e ∈ s.log, e.1 < s.nextId
  numbered : ∀ id < s.nextId, (∃ d ∈ s.returned, d.call.id = id) ∨
    ∃ t c, (s.phase t).call = some c ∧ c.id = id

theorem inv_init (cfg : Config) : Inv cfg System.init where
  sock _ := rfl
  reflects := ⟨rfl, fun _ => rfl, fun _ => rfl⟩
  fresh := fun _ _ h => by cases h
  freshReturned := fun _ h => by cases h
  inj := fun _ _ _ _ h => by cases h
  apart := fun _ _ h => by cases h
  nodup := List.nodup_nil
  done := fun _ h => by cases h
  due := fun _ _ h => by cases h
  logged := fun _ h => by cases h
  numbered := fun _ h => by cases h

section Moves
variable {cfg : Config} {s : System} {t : UInt32}

/-- The call of a thread after another thread's, or its own, phase changed. -/
theorem call_update {ph : Phase} {t' : UInt32} :
    (Function.update s.phase t ph t').call = if t' = t then ph.call else (s.phase t').call := by
  by_cases ht : t' = t
  · rw [if_pos ht, ht, Function.update_self]
  · rw [if_neg ht, Function.update_of_ne ht]

theorem call_cases {ph : Phase} {t' : UInt32} {c : Call}
    (h : (Function.update s.phase t ph t').call = some c) :
    (t' = t ∧ ph.call = some c) ∨ (t' ≠ t ∧ (s.phase t').call = some c) := by
  rw [call_update] at h
  split at h
  · rename_i ht
    exact Or.inl ⟨ht, h⟩
  · rename_i ht
    exact Or.inr ⟨ht, h⟩

/-- A number that is not in use yet has no reports. -/
theorem Inv.reportsOf_nextId (h : Inv cfg s) : reportsOf s.log s.nextId = [] := by
  rw [reportsOf, List.map_eq_nil_iff, List.filter_eq_nil_iff]
  intro e he
  have hlt := h.logged e he
  simp only [decide_eq_true_eq]
  omega

theorem Inv.sock_update {ph : Phase} {m : Maps} (h : Inv cfg s)
    (hsock : ∀ t', m.sockets.lookup t'
      = if t' = t then ph.socket cfg else s.maps.sockets.lookup t') (t' : UInt32) :
    m.sockets.lookup t' = (Function.update s.phase t ph t').socket cfg := by
  rw [hsock]
  by_cases ht : t' = t
  · rw [if_pos ht, ht, Function.update_self]
  · rw [if_neg ht, Function.update_of_ne ht]
    exact h.sock t'

/-- A connect starts. -/
theorem Inv.start {c : Call} {ph : Phase} {m : Maps} (h : Inv cfg s) (hidle : s.phase t = .idle)
    (hid : c.id = s.nextId) (hcall : ph.call = some c) (hdue : ph.due cfg = [])
    (hsock : ∀ t', m.sockets.lookup t'
      = if t' = t then ph.socket cfg else s.maps.sockets.lookup t')
    (href : Reflects m (s.log.map Prod.snd)) :
    Inv cfg { s with
      maps := m
      phase := Function.update s.phase t ph
      nextId := s.nextId + 1 } := by
  have hnew : reportsOf s.log c.id = [] := hid ▸ h.reportsOf_nextId
  have hcases : ∀ {t' c'}, (Function.update s.phase t ph t').call = some c' →
      (t' = t ∧ c' = c) ∨ (t' ≠ t ∧ (s.phase t').call = some c') := by
    intro t' c' hc'
    rcases call_cases hc' with ⟨ht, hself⟩ | hother
    · exact Or.inl ⟨ht, Option.some.inj (hself.symm.trans hcall)⟩
    · exact Or.inr hother
  refine ⟨h.sock_update hsock, href, ?_, ?_, ?_, ?_, h.nodup, h.done, ?_, ?_, ?_⟩
  · intro t' c' hc'
    show c'.id < s.nextId + 1
    rcases hcases hc' with ⟨-, rfl⟩ | ⟨-, hold⟩
    · omega
    · have := h.fresh t' c' hold
      omega
  · intro d hd
    have := h.freshReturned d hd
    show d.call.id < s.nextId + 1
    omega
  · intro t₁ t₂ c₁ c₂ h₁ h₂ heq
    rcases hcases h₁ with ⟨ht₁, rfl⟩ | ⟨-, hold₁⟩
    · rcases hcases h₂ with ⟨ht₂, rfl⟩ | ⟨-, hold₂⟩
      · rw [ht₁, ht₂]
      · have := h.fresh t₂ c₂ hold₂
        omega
    · rcases hcases h₂ with ⟨-, rfl⟩ | ⟨-, hold₂⟩
      · have := h.fresh t₁ c₁ hold₁
        omega
      · exact h.inj t₁ t₂ c₁ c₂ hold₁ hold₂ heq
  · intro t' c' hc' d hd
    rcases hcases hc' with ⟨-, rfl⟩ | ⟨-, hold⟩
    · have := h.freshReturned d hd
      omega
    · exact h.apart t' c' hold d hd
  · intro t' c' hc'
    rcases hcases hc' with ⟨rfl, rfl⟩ | ⟨ht, hold⟩
    · show reportsOf s.log c'.id = _
      rw [hnew]
      simp only [Function.update_self, hdue]
    · show reportsOf s.log c'.id = _
      simp only [Function.update_of_ne ht]
      exact h.due t' c' hold
  · exact fun e he => Nat.lt_succ_of_lt (h.logged e he)
  · intro id hlt
    rcases Nat.lt_succ_iff_lt_or_eq.mp hlt with hold | rfl
    · rcases h.numbered id hold with hd | ⟨t', c', hc', heq⟩
      · exact Or.inl hd
      · refine Or.inr ⟨t', c', ?_, heq⟩
        have ht : t' ≠ t := by
          rintro rfl
          rw [hidle] at hc'
          cases hc'
        show (Function.update s.phase t ph t').call = _
        rw [call_update, if_neg ht]
        exact hc'
    · refine Or.inr ⟨t, c, ?_, hid⟩
      show (Function.update s.phase t ph t).call = _
      rw [call_update, if_pos rfl]
      exact hcall

/-- A connect goes on, with further reports `rs`. -/
theorem Inv.move {c : Call} (ph : Phase) {m : Maps} (rs : List Report) (h : Inv cfg s)
    (hcall : (s.phase t).call = some c) (hcall' : ph.call = some c)
    (hdue : ph.due cfg = (s.phase t).due cfg ++ rs)
    (hsock : ∀ t', m.sockets.lookup t'
      = if t' = t then ph.socket cfg else s.maps.sockets.lookup t')
    (href : Reflects m (s.log.map Prod.snd ++ rs)) :
    Inv cfg { s with
      maps := m
      phase := Function.update s.phase t ph
      log := s.log ++ rs.map fun r => (c.id, r) } := by
  have hsame : ∀ t', (Function.update s.phase t ph t').call = (s.phase t').call := by
    intro t'
    rw [call_update]
    split
    · rename_i ht
      rw [ht, hcall, hcall']
    · rfl
  refine ⟨h.sock_update hsock, by rw [map_snd_append]; exact href, ?_, h.freshReturned, ?_, ?_,
    h.nodup, ?_, ?_, ?_, ?_⟩
  · intro t' c' hc'
    exact h.fresh t' c' ((hsame t').symm.trans hc')
  · intro t₁ t₂ c₁ c₂ h₁ h₂
    exact h.inj t₁ t₂ c₁ c₂ ((hsame t₁).symm.trans h₁) ((hsame t₂).symm.trans h₂)
  · intro t' c' hc'
    exact h.apart t' c' ((hsame t').symm.trans hc')
  · intro d hd
    have hne : ¬ c.id = d.call.id := fun heq => h.apart t c hcall d hd heq.symm
    show reportsOf (s.log ++ _) d.call.id = _
    rw [reportsOf_append, if_neg hne, List.append_nil]
    exact h.done d hd
  · intro t' c' hc'
    have hc'' : (s.phase t').call = some c' := (hsame t').symm.trans hc'
    show reportsOf (s.log ++ _) c'.id = _
    rw [reportsOf_append]
    by_cases ht : t' = t
    · subst ht
      obtain rfl : c = c' := Option.some.inj (hcall.symm.trans hc'')
      simp only [if_true, Function.update_self, h.due t' c hcall, hdue]
    · have hne : ¬ c.id = c'.id := fun heq => ht (h.inj t' t c' c hc'' hcall heq.symm)
      simp only [if_neg hne, List.append_nil, Function.update_of_ne ht]
      exact h.due t' c' hc''
  · intro e he
    rcases List.mem_append.mp he with hold | hnew
    · exact h.logged e hold
    · obtain ⟨r, -, rfl⟩ := List.mem_map.mp hnew
      exact h.fresh t c hcall
  · intro id hlt
    rcases h.numbered id hlt with hd | ⟨t', c', hc', heq⟩
    · exact Or.inl hd
    · exact Or.inr ⟨t', c', (hsame t').trans hc', heq⟩

/-- A connect whose result is known ends. -/
theorem Inv.finish {d : Returned} (h : Inv cfg s) (hphase : s.phase t = .innerReturned d) :
    Inv cfg { s with
      phase := Function.update s.phase t .idle
      returned := s.returned ++ [d] } := by
  have hcall : (s.phase t).call = some d.call := by rw [hphase]; rfl
  have hcases : ∀ {t' c'}, (Function.update s.phase t .idle t').call = some c' →
      t' ≠ t ∧ (s.phase t').call = some c' := by
    intro t' c' hc'
    rcases call_cases hc' with ⟨-, hnone⟩ | hother
    · cases hnone
    · exact hother
  have hsock : ∀ t', s.maps.sockets.lookup t'
      = if t' = t then Phase.idle.socket cfg else s.maps.sockets.lookup t' := by
    intro t'
    split
    · rename_i ht
      rw [ht, h.sock, hphase]
      rfl
    · rfl
  refine ⟨h.sock_update hsock, h.reflects, ?_, ?_, ?_, ?_, ?_, ?_, ?_, h.logged, ?_⟩
  · intro t' c' hc'
    exact h.fresh t' c' (hcases hc').2
  · intro d' hd'
    rcases List.mem_append.mp hd' with hold | hnew
    · exact h.freshReturned d' hold
    · obtain rfl := List.mem_singleton.mp hnew
      exact h.fresh t _ hcall
  · intro t₁ t₂ c₁ c₂ h₁ h₂
    exact h.inj t₁ t₂ c₁ c₂ (hcases h₁).2 (hcases h₂).2
  · intro t' c' hc' d' hd'
    rcases List.mem_append.mp hd' with hold | hnew
    · exact h.apart t' c' (hcases hc').2 d' hold
    · obtain rfl := List.mem_singleton.mp hnew
      intro heq
      exact (hcases hc').1 (h.inj t' t c' _ (hcases hc').2 hcall heq.symm)
  · show ((s.returned ++ [d]).map fun d => d.call.id).Nodup
    rw [List.map_append, List.nodup_append]
    refine ⟨h.nodup, by simp, ?_⟩
    intro a ha b hb
    obtain ⟨d', hd', rfl⟩ := List.mem_map.mp ha
    obtain rfl : b = d.call.id := by simpa using hb
    exact h.apart t _ hcall d' hd'
  · intro d' hd'
    rcases List.mem_append.mp hd' with hold | hnew
    · exact h.done d' hold
    · obtain rfl := List.mem_singleton.mp hnew
      have hdue := h.due t _ hcall
      rw [hphase] at hdue
      exact hdue
  · intro t' c' hc'
    show reportsOf s.log c'.id = _
    simp only [Function.update_of_ne (hcases hc').1]
    exact h.due t' c' (hcases hc').2
  · intro id hlt
    rcases h.numbered id hlt with ⟨d', hd', heq⟩ | ⟨t', c', hc', heq⟩
    · exact Or.inl ⟨d', List.mem_append_left _ hd', heq⟩
    · by_cases ht : t' = t
      · subst ht
        obtain rfl : d.call = c' := Option.some.inj (hcall.symm.trans hc')
        exact Or.inl ⟨d, by simp, heq⟩
      · refine Or.inr ⟨t', c', ?_, heq⟩
        show (Function.update s.phase t .idle t').call = _
        rw [call_update, if_neg ht]
        exact hc'

end Moves

/-! ## Steps and runs -/

section Steps
variable [HashOrder UInt32] [HashOrder Ipv4FlowKey] [HashOrder Ipv6FlowKey]
variable {cfg : Config} {s s' : System} {t : UInt32}

omit [HashOrder Ipv4FlowKey] [HashOrder Ipv6FlowKey] in
/-- An entry probe of a thread that is outside, or on the socket it has. -/
theorem Inv.enter (c : Call) (ph : Phase) (h : Inv cfg s) (hroom : NotFull s.maps)
    (hold : (s.phase t).socket cfg = none ∨ (s.phase t).socket cfg = ph.socket cfg)
    (hnew : ph.socket cfg = if Passes cfg c.task then some c.sk else none) :
    (∀ t', (enterTcpConnect cfg t c.task c.sk s.maps).sockets.lookup t'
        = if t' = t then ph.socket cfg else s.maps.sockets.lookup t') ∧
      Reflects (enterTcpConnect cfg t c.task c.sk s.maps) (s.log.map Prod.snd) := by
  obtain ⟨sockets, henter, hlook⟩ := enterTcpConnect_eq cfg t c.task c.sk hroom.1
  rw [henter]
  refine ⟨fun t' => ?_, ⟨h.reflects.events, h.reflects.ipv4, h.reflects.ipv6⟩⟩
  show sockets.lookup t' = _
  rw [hlook]
  by_cases ht : t' = t
  · subst ht
    by_cases hpass : Passes cfg c.task
    · simp [hpass, hnew]
    · rw [if_pos rfl, if_neg fun hp => hpass hp.2, h.sock]
      rcases hold with hold | hold
      · rw [hold, hnew, if_neg hpass]
      · exact hold
  · rw [if_neg fun hp => ht hp.1, if_neg ht]

omit [HashOrder UInt32] in
/-- The first return probe of a connect gives it the reports it should have. -/
theorem Inv.exit {c : Call} (mem : UInt64 → SockCommon) (now : UInt64) (ret : Int) (ipVer : IpVer)
    (h : Inv cfg s) (hroom : NotFull s.maps) (hcall : (s.phase t).call = some c)
    (hdue : (s.phase t).due cfg = [])
    (hsocket : (s.phase t).socket cfg = if Passes cfg c.task then some c.sk else none) :
    Inv cfg { s.exit cfg t c mem now ret ipVer with
      phase := Function.update s.phase t (.innerReturned ⟨c, ret, ipVer, mem c.sk, now⟩) } := by
  have hlook := h.sock t
  rw [hsocket] at hlook
  by_cases hpass : Passes cfg c.task
  · rw [if_pos hpass] at hlook
    obtain ⟨hrep, hsock, href⟩ := exitTcpConnect_of_some cfg c.task mem now ret ipVer hroom.2
      h.reflects hlook
    rw [← hrep] at href
    have hdue' : (Phase.innerReturned ⟨c, ret, ipVer, mem c.sk, now⟩).due cfg
        = (s.phase t).due cfg ++ (exitTcpConnect cfg t c.task mem now ret ipVer s.maps).2.toList := by
      rw [hrep, hdue, Phase.due, Returned.expected, if_pos hpass]
      rfl
    exact h.move _ _ hcall rfl hdue' hsock href
  · rw [if_neg hpass] at hlook
    have hsame : s.exit cfg t c mem now ret ipVer = s := by
      simp [System.exit, exitTcpConnect_of_none hlook]
    have hsock : ∀ t', s.maps.sockets.lookup t' = if t' = t then
        (Phase.innerReturned ⟨c, ret, ipVer, mem c.sk, now⟩).socket cfg
        else s.maps.sockets.lookup t' := by
      intro t'
      split
      · rename_i ht
        rw [ht, hlook]
        rfl
      · rfl
    have hmove := h.move (.innerReturned ⟨c, ret, ipVer, mem c.sk, now⟩) [] hcall rfl
      (by rw [hdue, Phase.due, Returned.expected, if_neg hpass]; rfl) hsock
      (by rw [List.append_nil]; exact h.reflects)
    rw [hsame]
    simpa using hmove

omit [HashOrder UInt32] in
/-- An outermost call returns. -/
theorem Inv.exit_finish {c : Call} {mem : UInt64 → SockCommon} {now : UInt64} {ret : Int}
    {ipVer : IpVer} (h : Inv cfg s) (hroom : NotFull s.maps) (hcall : (s.phase t).call = some c)
    (hdue : (s.phase t).due cfg = [])
    (hsocket : (s.phase t).socket cfg = if Passes cfg c.task then some c.sk else none) :
    Inv cfg { s.exit cfg t c mem now ret ipVer with
      phase := Function.update s.phase t .idle
      returned := s.returned ++ [⟨c, ret, ipVer, mem c.sk, now⟩] } := by
  have hfin := (h.exit mem now ret ipVer hroom hcall hdue hsocket).finish (t := t)
    (Function.update_self _ _ _)
  simp only [Function.update_idem] at hfin
  exact hfin

/-- Every firing keeps the invariant while the maps have room. -/
theorem inv_step {a : Firing} (h : Inv cfg s) (hroom : NotFull s.maps)
    (hstep : connectStep cfg s a = some s') : Inv cfg s' := by
  cases connectStep_move hstep with
  | @enterV4 tid sk task hphase =>
      obtain ⟨hsock, href⟩ := h.enter (t := tid) ⟨s.nextId, sk, task⟩
        (.inV4 ⟨s.nextId, sk, task⟩) hroom (Or.inl (by rw [hphase]; rfl)) rfl
      exact h.start hphase rfl rfl rfl hsock href
  | @enterV6 tid sk task hphase =>
      obtain ⟨hsock, href⟩ := h.enter (t := tid) ⟨s.nextId, sk, task⟩
        (.inV6 ⟨s.nextId, sk, task⟩) hroom (Or.inl (by rw [hphase]; rfl)) rfl
      exact h.start hphase rfl rfl rfl hsock href
  | @enterInner tid c hphase =>
      obtain ⟨hsock, href⟩ := h.enter (t := tid) c (.nested c) hroom
        (Or.inr (by rw [hphase]; rfl)) rfl
      have hmove := h.move (t := tid) (c := c) (.nested c) [] (by rw [hphase]; rfl) rfl
        (by rw [hphase]; rfl) hsock (by rw [List.append_nil]; exact href)
      simpa using hmove
  | returnV4 hphase =>
      exact h.exit_finish hroom (by rw [hphase]; rfl) (by rw [hphase]; rfl) (by rw [hphase]; rfl)
  | returnInner hphase =>
      exact h.exit _ _ _ .v4 hroom (by rw [hphase]; rfl) (by rw [hphase]; rfl)
        (by rw [hphase]; rfl)
  | returnV6 hphase =>
      exact h.exit_finish hroom (by rw [hphase]; rfl) (by rw [hphase]; rfl) (by rw [hphase]; rfl)
  | @returnOuter tid mem now d hphase =>
      -- nothing is stored any more, so the outer return reports nothing
      have hlook : s.maps.sockets.lookup tid = none := by
        rw [h.sock, hphase]
        rfl
      have hsame : s.exit cfg tid d.call mem now d.ret .v6 = s := by
        simp [System.exit, exitTcpConnect_of_none hlook]
      rw [hsame]
      exact h.finish hphase

/-! ## The connects of a run -/

/-- The thread has entered with the socket and the process of the call. -/
def Call.EnteredIn (tr : List Firing) (t : UInt32) (c : Call) : Prop :=
  .enterV4 t c.sk c.task ∈ tr ∨ .enterV6 t c.sk c.task ∈ tr

/-- And it has returned with this result, when the call's socket had these
fields. -/
def Returned.EndedIn (tr : List Firing) (t : UInt32) (d : Returned) : Prop :=
  ∃ mem, d.sock = mem d.call.sk ∧
    (d.ipVer = .v4 ∧ .returnV4 t d.ret mem d.now ∈ tr ∨
      d.ipVer = .v6 ∧ .returnV6 t d.ret mem d.now ∈ tr)

/-- All that is known of calls comes from the firings. -/
structure FromFirings (tr : List Firing) (s : System) : Prop where
  calls : ∀ t c, (s.phase t).call = some c → c.EnteredIn tr t
  inner : ∀ t d, s.phase t = .innerReturned d → d.EndedIn tr t
  returned : ∀ d ∈ s.returned, ∃ t, d.call.EnteredIn tr t ∧ d.EndedIn tr t

omit [HashOrder UInt32] [HashOrder Ipv4FlowKey] [HashOrder Ipv6FlowKey] in
theorem fromFirings_init (tr : List Firing) : FromFirings tr System.init where
  calls := fun _ _ hc => by cases hc
  inner := fun _ _ hd => by cases hd
  returned := fun _ hd => by cases hd

omit [HashOrder UInt32] [HashOrder Ipv4FlowKey] [HashOrder Ipv6FlowKey] in
theorem FromFirings.update {tr : List Firing} {ph : Phase} {m : Maps} {id : Nat}
    {log : List (Nat × Report)} {returned : List Returned} (h : FromFirings tr s)
    (hcall : ∀ c, ph.call = some c → c.EnteredIn tr t)
    (hinner : ∀ d, ph = .innerReturned d → d.EndedIn tr t)
    (hreturned : ∀ d ∈ returned, ∃ t, d.call.EnteredIn tr t ∧ d.EndedIn tr t) :
    FromFirings tr ⟨m, Function.update s.phase t ph, id, log, returned⟩ where
  calls t' c hc := by
    rcases call_cases hc with ⟨rfl, hself⟩ | ⟨-, hold⟩
    · exact hcall c hself
    · exact h.calls t' c hold
  inner t' d hd := by
    by_cases ht : t' = t
    · subst ht
      simp only [Function.update_self] at hd
      exact hinner d hd
    · simp only [Function.update_of_ne ht] at hd
      exact h.inner t' d hd
  returned := hreturned

/-- A firing of the run adds only what it brings. -/
theorem fromFirings_step {tr : List Firing} {a : Firing} (h : FromFirings tr s) (ha : a ∈ tr)
    (hstep : connectStep cfg s a = some s') : FromFirings tr s' := by
  have hadd : ∀ {t : UInt32} {d : Returned}, d.call.EnteredIn tr t → d.EndedIn tr t →
      ∀ d' ∈ s.returned ++ [d], ∃ t, d'.call.EnteredIn tr t ∧ d'.EndedIn tr t := by
    intro t d hentered hended d' hd'
    rcases List.mem_append.mp hd' with hold | hnew
    · exact h.returned d' hold
    · obtain rfl := List.mem_singleton.mp hnew
      exact ⟨t, hentered, hended⟩
  cases connectStep_move hstep with
  | enterV4 _ =>
      exact h.update (fun c hc => by cases hc; exact Or.inl ha) (fun d hd => by cases hd) h.returned
  | enterV6 _ =>
      exact h.update (fun c hc => by cases hc; exact Or.inr ha) (fun d hd => by cases hd) h.returned
  | @enterInner tid c hphase =>
      have hcall := h.calls tid c (by rw [hphase]; rfl)
      exact h.update (fun c hc => by cases hc; exact hcall) (fun d hd => by cases hd) h.returned
  | @returnV4 tid ret mem now c hphase =>
      have hcall := h.calls tid c (by rw [hphase]; rfl)
      exact h.update (fun c hc => by cases hc) (fun d hd => by cases hd)
        (hadd hcall ⟨mem, rfl, Or.inl ⟨rfl, ha⟩⟩)
  | @returnInner tid ret mem now c hphase =>
      have hcall := h.calls tid c (by rw [hphase]; rfl)
      exact h.update (fun c hc => by cases hc; exact hcall)
        (fun d hd => by cases hd; exact ⟨mem, rfl, Or.inl ⟨rfl, ha⟩⟩) h.returned
  | @returnV6 tid ret mem now c hphase =>
      have hcall := h.calls tid c (by rw [hphase]; rfl)
      exact h.update (fun c hc => by cases hc) (fun d hd => by cases hd)
        (hadd hcall ⟨mem, rfl, Or.inr ⟨rfl, ha⟩⟩)
  | @returnOuter tid mem now d hphase =>
      have hcall := h.calls tid d.call (by rw [hphase]; rfl)
      exact h.update (fun c hc => by cases hc) (fun d hd => by cases hd)
        (hadd hcall (h.inner tid d hphase))

/-- The firings that start a connect. -/
def Firing.outermost : Firing → Bool
  | .enterV4 _ _ _ => true
  | .enterV6 _ _ _ => true
  | _ => false

theorem nextId_step {a : Firing} (hstep : connectStep cfg s a = some s') :
    s'.nextId = s.nextId + if a.outermost then 1 else 0 := by
  cases connectStep_move hstep <;> rfl

/-- Every entry of an outermost call has got a number. -/
theorem nextId_run {tr : List Firing} (hrun : exec (connectStep cfg) s tr = some s') :
    s'.nextId = s.nextId + tr.countP Firing.outermost := by
  induction tr generalizing s with
  | nil =>
      cases hrun
      rfl
  | cons a tr ih =>
      obtain ⟨s₁, h₁, h₂⟩ := exec_cons.mp hrun
      rw [ih h₂, nextId_step h₁, List.countP_cons]
      omega

/-! ## The result -/

/-- A connect that returned 0, passes the filters and has a port that is not
left out has one report, its own; any other has none. -/
def Returned.ReportedIn (cfg : Config) (log : List (Nat × Report)) (d : Returned) : Prop :=
  if d.ret = 0 ∧ Passes cfg d.call.task ∧ filterPort cfg d.sock.skcDport = false then
    ∃ r, reportsOf log d.call.id = [r] ∧ r.Of cfg d
  else reportsOf log d.call.id = []

omit [HashOrder UInt32] [HashOrder Ipv4FlowKey] [HashOrder Ipv6FlowKey] in
theorem Returned.reportedIn {log : List (Nat × Report)} {d : Returned}
    (h : reportsOf log d.call.id = (d.expected cfg).toList) : d.ReportedIn cfg log := by
  rw [d.expected_toList] at h
  rw [Returned.ReportedIn]
  split
  · rename_i hwant
    rw [if_pos hwant] at h
    exact ⟨_, h, reportOf_of cfg d⟩
  · rename_i hwant
    rw [if_neg hwant] at h
    exact h

/-- In every run in which the maps do not fill: every connect that returned has
exactly the report it should have, or none; a report of no returned connect
belongs to one whose inner call has returned and which should have it; numbers
tell the connects apart, each outermost entry of the run has one, and what a
connect is and how it ended is in the firings; perf output and counters are
what the reports made them; and no socket is stored while no thread is in a
connect. -/
theorem connect_reported_once (cfg : Config) (tr : List Firing) (s : System)
    (hroom : Meets (connectStep cfg) (fun s _ => NotFull s.maps) System.init tr)
    (hrun : exec (connectStep cfg) System.init tr = some s) :
    (∀ d ∈ s.returned, d.ReportedIn cfg s.log) ∧
    (∀ e ∈ s.log, (∃ d ∈ s.returned, d.call.id = e.1) ∨
      ∃ t d, s.phase t = .innerReturned d ∧ d.call.id = e.1 ∧ d.EndedIn tr t ∧
        d.ret = 0 ∧ Passes cfg d.call.task ∧ filterPort cfg d.sock.skcDport = false ∧
        d.ReportedIn cfg s.log) ∧
    (s.returned.map fun d => d.call.id).Nodup ∧
    (∀ id < tr.countP Firing.outermost, (∃ d ∈ s.returned, d.call.id = id) ∨
      ∃ t c, (s.phase t).call = some c ∧ c.id = id) ∧
    (∀ d ∈ s.returned, ∃ t, d.call.EnteredIn tr t ∧ d.EndedIn tr t) ∧
    Reflects s.maps (s.log.map Prod.snd) ∧
    ((∀ t, s.phase t = .idle) → s.maps.sockets.entries = []) := by
  have h : Inv cfg s := exec_invariant_of (fun s _ => NotFull s.maps)
    (fun s a s' hs hok hstep => inv_step hs hok hstep) tr (inv_init cfg) hroom hrun
  have hfrom : FromFirings tr s := exec_invariant_of (fun _ a => a ∈ tr)
    (fun s a s' hs ha hstep => fromFirings_step hs ha hstep) tr
    (fromFirings_init tr) (meets_of_forall fun a ha _ => ha) hrun
  have hnumber : s.nextId = tr.countP Firing.outermost := by
    rw [nextId_run hrun]
    exact Nat.zero_add _
  refine ⟨fun d hd => Returned.reportedIn (h.done d hd), ?_, h.nodup, hnumber ▸ h.numbered,
    hfrom.returned, h.reflects, ?_⟩
  · intro e he
    rcases h.numbered e.1 (h.logged e he) with hd | ⟨t, c, hc, heq⟩
    · exact Or.inl hd
    · right
      -- the connect has a report, so its inner call has returned
      have hmem : e.2 ∈ reportsOf s.log c.id := by
        rw [reportsOf, List.mem_map]
        exact ⟨e, List.mem_filter.mpr ⟨he, by simp [heq]⟩, rfl⟩
      have hdue := h.due t c hc
      rw [hdue] at hmem
      cases hph : s.phase t with
      | innerReturned d =>
          rw [hph] at hmem hc hdue
          obtain rfl : d.call = c := Option.some.inj hc
          refine ⟨t, d, hph, heq, hfrom.inner t d hph, ?_⟩
          rw [Phase.due, d.expected_toList] at hmem
          split at hmem
          · rename_i hwant
            exact ⟨hwant.1, hwant.2.1, hwant.2.2, Returned.reportedIn hdue⟩
          · cases hmem
      | idle => simp [hph, Phase.due] at hmem
      | inV4 c' => simp [hph, Phase.due] at hmem
      | inV6 c' => simp [hph, Phase.due] at hmem
      | nested c' => simp [hph, Phase.due] at hmem
  · intro hidle
    apply HashMap.eq_nil_of_lookup
    intro t
    rw [h.sock, hidle]
    rfl

end Steps

/-- No filter on process or user, port 443 only, events. -/
def sampleConfig : Config where
  filterPorts := ⟨47873 :: List.replicate 63 0, rfl⟩
  filterPortsLen := 1
  len_le := by decide
  filterUid := 0xFFFFFFFF
  filterPid := 0
  doCount := false

/-- All sockets, with the address as their last byte and port 443. -/
def sampleMem (sk : UInt64) : SockCommon where
  skcRcvSaddr := le32 10 0 0 sk.toUInt8
  skcDaddr := le32 192 0 2 1
  skcV6RcvSaddr := padded 16 [0xfe, 0x80]
  skcV6Daddr := padded 16 [0x20, 0x01]
  skcDport := 47873

/-- Thread 7 connects over IPv6 to an IPv4 address while thread 8 fails. -/
def sampleFirings : List Firing :=
  [.enterV6 7 1 ⟨70, 0, Buf.zero 16⟩, .enterV4 8 2 ⟨80, 0, Buf.zero 16⟩, .enterInner 7,
    .returnV4 8 (-111) sampleMem 1000, .returnV4 7 0 sampleMem 2000, .returnV6 7 0 sampleMem 3000]

/-- A step on tables that put every new key in front. -/
def sampleStep (s : System) (a : Firing) : Option System :=
  @connectStep ⟨fun _ => 0⟩ ⟨fun _ => 0⟩ ⟨fun _ => 0⟩ sampleConfig s a

theorem connect_reported_once_sampleFirings :
    ∃ s, exec sampleStep System.init sampleFirings = some s ∧ s.returned.length = 2 ∧
      (∀ d ∈ s.returned, d.ReportedIn sampleConfig s.log) ∧
      s.maps.events = [⟨padded 16 [10, 0, 0, 1], padded 16 [192, 0, 2, 1], Buf.zero 16, 2, 2, 70, 0,
        47873⟩] := by
  have hroom : Meets sampleStep (fun s _ => NotFull s.maps) System.init sampleFirings := by
    decide +kernel
  have hends : (exec sampleStep System.init sampleFirings).map
      (fun s => (s.returned.length, s.maps.events))
      = some (2, [⟨padded 16 [10, 0, 0, 1], padded 16 [192, 0, 2, 1], Buf.zero 16, 2, 2, 70, 0,
        47873⟩]) := by
    decide +kernel
  obtain ⟨s, hrun, hs⟩ := Option.map_eq_some_iff.mp hends
  obtain ⟨hlen, hevents⟩ := Prod.mk.inj hs
  exact ⟨s, hrun, hlen, (@connect_reported_once ⟨fun _ => 0⟩ ⟨fun _ => 0⟩ ⟨fun _ => 0⟩
    sampleConfig sampleFirings s hroom hrun).1, hevents⟩

end NetProbes.TcpConnect
