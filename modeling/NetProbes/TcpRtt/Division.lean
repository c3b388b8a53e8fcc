/-
# `NetProbes.TcpRtt.Division` — the average that `-e` prints

With `-e` the printer divides the latency of every histogram it copies by its
`cnt`.  A handler inserts a histogram of zeros first and adds to `cnt` last, in
four steps, and an entry is visible from its insert on.  So `cnt` is zero, and
the division crashes, exactly where the copy comes before the first addition to
`cnt`: `counted` has the handlers that have added to the `cnt` of a cell since
the cell was inserted, beside the state of the program, and

    cnt = number of handlers in `counted`, as a 64-bit number

is kept by every step (`cntExact_step`).  Hence a run copies no zero `cnt` if and
only if it copies only what has been counted (`copies_nonzero_iff`).

What has not been counted has a handler that is still under way to its `cnt`
(`allAttended_step`), so a run that copies only where the stages of the handlers
show none copies no zero (`copies_nonzero_of_quiet`).
-/
import NetProbes.TcpRtt.NoLoss

namespace NetProbes.TcpRtt

open NetProbes.Lib

/-! ## Copies -/

/-- Where the step copies a histogram with `-e`, the memory it copies. -/
def copied (cfg : Config) (s : State) : Action → Option Nat
  | .printer =>
      match s.printer with
      | .scanLookup nextKey => if cfg.targShowExt then s.table.lookup nextKey else none
      | _ => none
  | _ => none

/-- The histogram the step copies, if it copies one with `-e`, has a `cnt` to
divide by. -/
def CopiesNonzero (cfg : Config) (s : State) (a : Action) : Prop :=
  ∀ histp ∈ copied cfg s a, (s.cells histp).hist.cnt ≠ 0

instance decCopiesNonzero (cfg : Config) (s : State) (a : Action) :
    Decidable (CopiesNonzero cfg s a) :=
  inferInstanceAs (Decidable (∀ histp ∈ copied cfg s a, _))

/-! ## Who has counted -/

/-- A state, and for every cell the handlers that have added to its `cnt` since
it was inserted. -/
structure Traced where
  state : State
  counted : Nat → List Nat

def Traced.init : Traced := ⟨State.init, fun _ => []⟩

/-- An insert starts a new list, an addition to `cnt` makes it longer. -/
def noteCounted [HashOrder UInt64] (cfg : Config) (t : Traced) : Action → Nat → List Nat
  | .handler x addr =>
      match t.state.handlers x with
      | some ⟨sk, .insert⟩ =>
          match t.state.table.update (keyOf cfg sk) addr .noexist with
          | .ok _ => Function.update t.counted addr []
          | .error _ => t.counted
      | some ⟨_, .addCnt histp⟩ => Function.update t.counted histp (t.counted histp ++ [x])
      | _ => t.counted
  | _ => t.counted

def tracedStep [HashOrder UInt64] (cfg : Config) (t : Traced) (a : Action) : Option Traced :=
  (concurrentStep cfg t.state a).map fun s => ⟨s, noteCounted cfg t a⟩

/-- The histogram the step copies, if it copies one with `-e`, has been counted
by a handler since its insert, and by no multiple of `2 ^ 64` of them. -/
def CopiesCounted (cfg : Config) (t : Traced) (a : Action) : Prop :=
  ∀ histp ∈ copied cfg t.state a, (t.counted histp).length % 2 ^ 64 ≠ 0

/-! ## `cnt` counts them -/

/-- `cnt` is the number of handlers that have counted. -/
def CntExact (t : Traced) : Prop :=
  ∀ histp, (t.state.cells histp).hist.cnt = UInt64.ofNat (t.counted histp).length

theorem cntExact_init : CntExact Traced.init := by
  intro histp
  rfl

/-- A write that leaves `cnt` alone. -/
theorem CntExact.write {s : State} {counted : Nat → List Nat} (h : CntExact ⟨s, counted⟩)
    (histp : Nat) (f : Cell → Cell) (hf : ∀ c, (f c).hist.cnt = c.hist.cnt) :
    CntExact ⟨s.write histp f, counted⟩ := by
  intro p
  by_cases hp : p = histp
  · subst hp
    simp only [State.write, Function.update_self, hf]
    exact h p
  · simp only [State.write, Function.update_of_ne hp]
    exact h p

/-- The addition to `cnt`. -/
theorem CntExact.addCnt {s : State} {counted : Nat → List Nat} (h : CntExact ⟨s, counted⟩)
    (histp x : Nat) :
    CntExact ⟨s.write histp fun c => { c with hist := c.hist.addCnt },
      Function.update counted histp (counted histp ++ [x])⟩ := by
  intro p
  by_cases hp : p = histp
  · subst hp
    have hcnt : (s.cells p).hist.cnt = UInt64.ofNat (counted p).length := h p
    simp only [State.write, Function.update_self, Hist.addCnt, hcnt, List.length_append,
      List.length_singleton]
    apply UInt64.toNat_inj.mp
    simp
  · simp only [State.write, Function.update_of_ne hp]
    exact h p

/-- An insert zeroes a cell and starts its list anew. -/
theorem CntExact.insert {s : State} {counted : Nat → List Nat} (h : CntExact ⟨s, counted⟩)
    (table : HashMap UInt64 Nat 10240) (addr : Nat) :
    CntExact ⟨{ s with table, cells := Function.update s.cells addr ⟨Hist.zero, []⟩ },
      Function.update counted addr []⟩ := by
  intro p
  by_cases hp : p = addr
  · subst hp
    simp only [Function.update_self]
    rfl
  · simp only [Function.update_of_ne hp]
    exact h p

section Steps
variable [HashOrder UInt64] {cfg : Config}

theorem cntExact_handlerStep {t : Traced} {x addr : Nat} {s' : State} (h : CntExact t)
    (hstep : handlerStep cfg t.state x addr = some s') :
    CntExact ⟨s', noteCounted cfg t (.handler x addr)⟩ := by
  obtain ⟨sk, stage, hx, hmove⟩ := handlerStep_move hstep
  cases hmove with
  | @insert table hup _ =>
      simp only [noteCounted, hx, hup]
      exact h.insert table addr
  | insertLost hup =>
      simp only [noteCounted, hx, hup]
      exact h
  | insertFailed hup _ =>
      simp only [noteCounted, hx, hup]
      exact h
  | addSlot =>
      simp only [noteCounted, hx]
      exact h.write _ (fun c => ⟨c.hist.addSlot (slotOf (srttOf cfg sk)), c.samples ++ [x]⟩)
        fun _ => rfl
  | addLatency =>
      simp only [noteCounted, hx]
      exact h.write _ (fun c => { c with hist := c.hist.addLatency (srttOf cfg sk) }) fun _ => rfl
  | addCnt =>
      simp only [noteCounted, hx]
      exact h.addCnt _ x
  | _ =>
      -- a lookup writes to no cell
      simp only [noteCounted, hx]
      exact h

omit [HashOrder UInt64] in
/-- A step of the printer writes to no cell, and crashes only where it copies a
zero `cnt`. -/
theorem printerStep_spec {s s' : State} (hstep : printerStep cfg s = some s') :
    s'.cells = s.cells ∧ (CopiesNonzero cfg s .printer → s'.printer ≠ .crashed) := by
  have hmove := printerStep_move hstep
  generalize hp : s.printer = pr at hmove
  cases hmove with
  | @crash _ histp hl hext hzero =>
      refine ⟨rfl, fun hok => ?_⟩
      have hcopy : copied cfg s .printer = some histp := by
        simp only [copied, hp, hext, if_true, hl]
      exact absurd hzero (hok histp hcopy)
  | _ => exact ⟨rfl, fun _ hcrash => by cases hcrash⟩

theorem cntExact_step {t t' : Traced} {a : Action} (h : CntExact t)
    (hstep : tracedStep cfg t a = some t') : CntExact t' := by
  obtain ⟨s', hs', rfl⟩ := Option.map_eq_some_iff.mp hstep
  cases a with
  | arrive x sk =>
      simp only [concurrentStep] at hs'
      split at hs'
      · cases hs'
      · cases hs'
        exact h
  | handler x addr => exact cntExact_handlerStep h hs'
  | printer =>
      intro histp
      show (s'.cells histp).hist.cnt = _
      rw [(printerStep_spec hs').1]
      exact h histp

omit [HashOrder UInt64] in
theorem CntExact.copies_iff {t : Traced} (h : CntExact t) (a : Action) :
    CopiesNonzero cfg t.state a ↔ CopiesCounted cfg t a := by
  refine forall_congr' fun histp => imp_congr_right fun _ => not_congr ?_
  rw [h histp, ← UInt64.toNat_inj, UInt64.toNat_ofNat']
  exact Iff.rfl

theorem handlerStep_printer {s s' : State} {x addr : Nat}
    (hstep : handlerStep cfg s x addr = some s') : s'.printer = s.printer := by
  obtain ⟨sk, stage, hx, hmove⟩ := handlerStep_move hstep
  cases hmove with
  | _ => rfl

theorem not_crashed_step {s s' : State} {a : Action} (h : s.printer ≠ .crashed)
    (hok : CopiesNonzero cfg s a) (hstep : concurrentStep cfg s a = some s') :
    s'.printer ≠ .crashed := by
  cases a with
  | arrive x sk =>
      simp only [concurrentStep] at hstep
      split at hstep
      · cases hstep
      · cases hstep
        exact h
  | handler x addr =>
      rw [handlerStep_printer hstep]
      exact h
  | printer => exact (printerStep_spec hstep).2 hok

/-- The two conditions on the copies of a run are one. -/
theorem meets_copies_iff (cfg : Config) (tr : List Action) :
    Meets (concurrentStep cfg) (CopiesNonzero cfg) State.init tr ↔
      Meets (tracedStep cfg) (CopiesCounted cfg) Traced.init tr := by
  have hview : Meets (concurrentStep cfg) (CopiesNonzero cfg) Traced.init.state tr ↔
      Meets (tracedStep cfg) (fun t a => CopiesNonzero cfg t.state a) Traced.init tr :=
    meets_view Traced.state (fun t a => by simp [tracedStep, Function.comp_def]) (CopiesNonzero cfg)
  exact hview.trans (meets_congr (fun _ _ _ hI hs => cntExact_step hI hs)
    (fun t a hI => CntExact.copies_iff hI a) cntExact_init)

/-- For every run: every histogram that is copied with `-e` has a `cnt` other
than zero if and only if every one has been counted since its insert; and then
no state of the run has divided by zero. -/
theorem copies_nonzero_iff (cfg : Config) (tr : List Action) :
    (Meets (concurrentStep cfg) (CopiesNonzero cfg) State.init tr ↔
      Meets (tracedStep cfg) (CopiesCounted cfg) Traced.init tr) ∧
    (Meets (tracedStep cfg) (CopiesCounted cfg) Traced.init tr →
      ∀ s, exec (concurrentStep cfg) State.init tr = some s → s.printer ≠ .crashed) := by
  refine ⟨meets_copies_iff cfg tr, fun hcounted s hrun => ?_⟩
  have hinit : State.init.printer ≠ .crashed := by simp [State.init]
  exact exec_invariant_of (CopiesNonzero cfg) (fun _ _ _ hI hok hs => not_crashed_step hI hok hs)
    tr hinit ((meets_copies_iff cfg tr).mpr hcounted) hrun

end Steps

/-! ## Who is under way -/

/-- The handler has seen to it that there is an entry, which is in `histp` if it
knows where, and has yet to count in it. -/
def Stage.UnderWay (histp : Nat) : Stage → Prop
  | .lookupAgain => True
  | .addSlot p => p = histp
  | .addLatency p => p = histp
  | .addCnt p => p = histp
  | _ => False

/-- A handler of the key is under way. -/
def Attended (cfg : Config) (s : State) (key : UInt64) (histp : Nat) : Prop :=
  ∃ x sk stage, s.handlers x = some ⟨sk, stage⟩ ∧ keyOf cfg sk = key ∧ stage.UnderWay histp

/-- Every entry has been counted or is attended. -/
def AllAttended (cfg : Config) (t : Traced) : Prop :=
  ∀ key histp, t.state.table.lookup key = some histp → t.counted histp = [] →
    Attended cfg t.state key histp

section UnderWay

variable [HashOrder UInt64] {cfg : Config} {t t' : Traced} {s s' : State} {x addr : Nat} {sk : Sock}
  {stage stage' : Stage} {counted : Nat → List Nat}

omit [HashOrder UInt64] in
theorem attended_move {h : Handler} {key : UInt64} {histp : Nat}
    (hx : s.handlers x = some ⟨sk, stage⟩) (hatt : Attended cfg s key histp)
    (hstage : keyOf cfg sk = key → stage.UnderWay histp →
      keyOf cfg h.sk = key ∧ stage'.UnderWay histp) :
    Attended cfg (s.move x h stage') key histp := by
  obtain ⟨y, sky, stagey, hy, hkey, hunder⟩ := hatt
  by_cases hyx : y = x
  · subst hyx
    rw [hx] at hy
    obtain ⟨rfl, rfl⟩ := Handler.mk.inj (Option.some.inj hy)
    obtain ⟨hkey', hunder'⟩ := hstage hkey hunder
    exact ⟨y, h.sk, stage', Function.update_self .., hkey', hunder'⟩
  · exact ⟨y, sky, stagey, (Function.update_of_ne hyx ..).trans hy, hkey, hunder⟩

/-- An addition, or a step that does not touch the map; the handler stays under
way unless it counts or finds no entry. -/
theorem allAttended_handlerStep (hext : cfg.targShowExt = true) (h : AllAttended cfg t)
    (hstep : handlerStep cfg t.state x addr = some s') :
    AllAttended cfg ⟨s', noteCounted cfg t (.handler x addr)⟩ := by
  obtain ⟨sk, stage, hx, hmove⟩ := handlerStep_move hstep
  intro key histp hlookup hnone
  cases hmove with
  | hit hl =>
      simp only [noteCounted, hx] at hnone
      exact attended_move hx (h key histp hlookup hnone) fun _ hunder => hunder.elim
  | miss hl =>
      simp only [noteCounted, hx] at hnone
      exact attended_move hx (h key histp hlookup hnone) fun _ hunder => hunder.elim
  | @insert table hup hfree =>
      simp only [noteCounted, hx, hup] at hnone
      rcases (lookup_insert hup hfree).mp hlookup with ⟨rfl, rfl⟩ | ⟨-, hne, hold⟩
      · exact ⟨x, sk, .lookupAgain, Function.update_self .., rfl, trivial⟩
      · rw [Function.update_of_ne hne] at hnone
        exact attended_move (s := { t.state with table, cells := _ }) hx
          (h key histp hold hnone) fun _ hunder => hunder.elim
  | insertLost hup =>
      simp only [noteCounted, hx, hup] at hnone
      exact attended_move hx (h key histp hlookup hnone) fun _ hunder => hunder.elim
  | insertFailed hup _ =>
      simp only [noteCounted, hx, hup] at hnone
      exact attended_move hx (h key histp hlookup hnone) fun _ hunder => hunder.elim
  | @found p hl =>
      simp only [noteCounted, hx] at hnone
      refine attended_move hx (h key histp hlookup hnone) fun hkey _ => ⟨hkey, ?_⟩
      rw [hkey] at hl
      exact Option.some.inj (hl.symm.trans hlookup)
  | gone hl =>
      simp only [noteCounted, hx] at hnone
      refine attended_move hx (h key histp hlookup hnone) fun hkey _ => ?_
      rw [hkey] at hl
      cases hl.symm.trans hlookup
  | @addSlot p =>
      simp only [noteCounted, hx] at hnone
      rw [if_pos hext]
      exact attended_move (s := t.state.write p _) hx (h key histp hlookup hnone)
        fun hkey hunder => ⟨hkey, hunder⟩
  | @addLatency p =>
      simp only [noteCounted, hx] at hnone
      exact attended_move (s := t.state.write p _) hx (h key histp hlookup hnone)
        fun hkey hunder => ⟨hkey, hunder⟩
  | @addCnt p =>
      simp only [noteCounted, hx] at hnone
      by_cases hp : histp = p
      · subst hp
        rw [Function.update_self] at hnone
        cases List.append_ne_nil_of_right_ne_nil _ (List.cons_ne_nil _ _) hnone
      · rw [Function.update_of_ne hp] at hnone
        exact attended_move (s := t.state.write p _) hx (h key histp hlookup hnone)
          fun _ hunder => absurd hunder.symm hp

theorem allAttended_step (hext : cfg.targShowExt = true) {a : Action} (h : AllAttended cfg t)
    (hstep : tracedStep cfg t a = some t') : AllAttended cfg t' := by
  obtain ⟨s', hs', rfl⟩ := Option.map_eq_some_iff.mp hstep
  cases a with
  | arrive x sk =>
      simp only [concurrentStep] at hs'
      split at hs'
      · cases hs'
      · rename_i hfree
        cases hs'
        intro key histp hlookup hnone
        obtain ⟨y, sky, stage, hy, hunder⟩ := h key histp hlookup hnone
        have hyx : y ≠ x := fun heq => by
          rw [heq, hfree] at hy
          cases hy
        exact ⟨y, sky, stage, (Function.update_of_ne hyx ..).trans hy, hunder⟩
  | handler x addr => exact allAttended_handlerStep hext h hs'
  | printer =>
      -- the printer takes entries away and touches no handler
      have hmove := printerStep_move hs'
      intro key histp hlookup hnone
      generalize t.state.printer = pr at hmove
      cases hmove with
      | delete hdel =>
          rw [HashMap.lookup_delete hdel] at hlookup
          split at hlookup
          · cases hlookup
          · exact h key histp hlookup hnone
      | _ => exact h key histp hlookup hnone

omit [HashOrder UInt64] in
theorem allAttended_init (cfg : Config) : AllAttended cfg Traced.init := by
  intro key histp hlookup
  cases hlookup

theorem noteCounted_length_le (cfg : Config) (t : Traced) (a : Action) (histp : Nat) :
    (noteCounted cfg t a histp).length ≤ (t.counted histp).length + 1 := by
  have hupdate : ∀ {p : Nat} {xs : List Nat}, xs.length ≤ (t.counted p).length + 1 →
      (Function.update t.counted p xs histp).length ≤ (t.counted histp).length + 1 := by
    intro p xs hxs
    by_cases hp : histp = p
    · subst hp
      rwa [Function.update_self]
    · rw [Function.update_of_ne hp]
      exact Nat.le_succ _
  cases a with
  | handler x addr =>
      cases hx : t.state.handlers x with
      | none =>
          simp only [noteCounted, hx]
          exact Nat.le_succ _
      | some h =>
          obtain ⟨sk, stage⟩ := h
          cases stage with
          | insert =>
              cases hup : t.state.table.update (keyOf cfg sk) addr .noexist with
              | ok table =>
                  simp only [noteCounted, hx, hup]
                  exact hupdate (Nat.zero_le _)
              | error e =>
                  simp only [noteCounted, hx, hup]
                  exact Nat.le_succ _
          | addCnt p =>
              simp only [noteCounted, hx]
              exact hupdate (by simp)
          | _ =>
              simp only [noteCounted, hx]
              exact Nat.le_succ _
  | _ => exact Nat.le_succ _

end UnderWay

/-- The printer copies an entry only while no handler of its key is under way. -/
def Quiet (cfg : Config) (s : State) : Action → Prop
  | .printer => ∀ key histp, s.printer = .scanLookup key → s.table.lookup key = some histp →
      ¬ Attended cfg s key histp
  | _ => True

section Quiet

variable [HashOrder UInt64] {cfg : Config}

omit [HashOrder UInt64] in
/-- What is copied without a handler under way has been counted. -/
theorem counted_of_quiet {t : Traced} {a : Action} (h : AllAttended cfg t)
    (hquiet : Quiet cfg t.state a) : ∀ histp ∈ copied cfg t.state a, t.counted histp ≠ [] := by
  intro histp hcopied hnone
  cases a with
  | printer =>
      simp only [copied] at hcopied
      split at hcopied
      · rename_i key hprinter
        split at hcopied
        · exact hquiet key histp hprinter hcopied (h key histp hcopied hnone)
        · cases hcopied
      · cases hcopied
  | _ => cases hcopied

/-- Induction on the run: no list of counters gets as long as `2 ^ 64`. -/
theorem meets_counted_of_quiet (hext : cfg.targShowExt = true) {tr : List Action} {t : Traced}
    (h : AllAttended cfg t) (hlen : ∀ histp, (t.counted histp).length + tr.length < 2 ^ 64)
    (hquiet : Meets (tracedStep cfg) (fun t a => Quiet cfg t.state a) t tr) :
    Meets (tracedStep cfg) (CopiesCounted cfg) t tr := by
  induction tr generalizing t with
  | nil => trivial
  | cons a tr ih =>
      refine ⟨fun histp hcopied => ?_, fun t' hstep => ?_⟩
      · have hpos := List.length_pos_of_ne_nil (counted_of_quiet h hquiet.1 histp hcopied)
        have hlt := hlen histp
        rw [Nat.mod_eq_of_lt (by omega)]
        omega
      · refine ih (allAttended_step hext h hstep) (fun histp => ?_) (hquiet.2 t' hstep)
        obtain ⟨s', -, rfl⟩ := Option.map_eq_some_iff.mp hstep
        have hle := noteCounted_length_le cfg t a histp
        have hlt := hlen histp
        rw [List.length_cons] at hlt
        show (noteCounted cfg t a histp).length + tr.length < 2 ^ 64
        omega

/-- Where no copy falls between the insert of its entry and the first addition
to its `cnt`, as the stages of the handlers tell, no copy has a `cnt` of zero. -/
theorem copies_nonzero_of_quiet {tr : List Action} (hlen : tr.length < 2 ^ 64)
    (hquiet : Meets (concurrentStep cfg) (Quiet cfg) State.init tr) :
    Meets (concurrentStep cfg) (CopiesNonzero cfg) State.init tr := by
  cases hext : cfg.targShowExt with
  | false =>
      -- nothing is copied with `-e`
      refine meets_of_forall fun a _ s histp hcopied => ?_
      cases a with
      | printer =>
          simp only [copied, hext] at hcopied
          split at hcopied
          · cases hcopied
          · cases hcopied
      | _ => cases hcopied
  | true =>
      refine (meets_copies_iff cfg tr).mpr
        (meets_counted_of_quiet hext (allAttended_init cfg) (fun _ => ?_) ?_)
      · simpa [Traced.init] using hlen
      · exact (meets_view Traced.state (fun t a => by simp [tracedStep, Function.comp_def])
          (Quiet cfg)).mp hquiet

end Quiet

/-- `-e`, without filters. -/
def extConfig : Config := { plainConfig with targShowExt := true }

/-- The printer comes between the insert of an entry and its first sample. -/
def earlyRun : List Action :=
  [.arrive 0 plainSock, .handler 0 0, .handler 0 0, .printer, .printer, .printer]

/-- It copies a zero `cnt` and divides by it. -/
theorem earlyRun_crashes :
    ¬ Meets (@concurrentStep ⟨fun _ => 0⟩ extConfig) (CopiesNonzero extConfig) State.init earlyRun ∧
    ∃ s, exec (@concurrentStep ⟨fun _ => 0⟩ extConfig) State.init earlyRun = some s ∧
      s.printer = .crashed := by
  have hcrash : (exec (@concurrentStep ⟨fun _ => 0⟩ extConfig) State.init earlyRun).map
      (fun s => match s.printer with
        | .crashed => true
        | _ => false) = some true := by
    decide +kernel
  refine ⟨by decide +kernel, ?_⟩
  obtain ⟨s, hrun, hs⟩ := Option.map_eq_some_iff.mp hcrash
  refine ⟨s, hrun, ?_⟩
  split at hs
  · assumption
  · cases hs

end NetProbes.TcpRtt
