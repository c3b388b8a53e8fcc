/-
# `NetProbes.Netfilter.IptTableRuns` — the events of all runs

What holds of a call in progress, stage by stage: where its arguments are, and
what of its event is filled in.

    running, lookup    in the map, if the entry was seen
    delete             in the map, and the probe has the pointer
    the reads          out of the map, but still in the memory of the pointer
    submit             in the event

An entry that is alone does not disturb this: it finds room in the map, and the
memory it gets is none of those.  Everything else a call meets is in `Inv.step`.

Whether a given run meets the conditions can be checked for the calls of the
threads it names (`meets_of_okAmong`).
-/
import NetProbes.Netfilter.IptTable

namespace NetProbes.Netfilter.IptTable

open NetProbes.Lib

/-! ## The invariant -/

/-- What of the event is filled in when the return probe is at a stage. -/
def filled (pid : UInt32) (c : Call) : Stage → EventData
  | .readHook _ => { EventData.zero with pid := pid, skb := c.args.skb }
  | .readPf _ => { EventData.zero with pid := pid, skb := c.args.skb, hook := c.hookState.hook }
  | .readTable _ => { EventData.zero with
      pid := pid, skb := c.args.skb, hook := c.hookState.hook, pf := c.hookState.pf }
  | .submit => { EventData.zero with
      pid := pid, skb := c.args.skb, hook := c.hookState.hook, pf := c.hookState.pf
      table := c.tableName }
  | _ => EventData.zero

/-- The arguments are in the map where the entry was seen, and nothing where it
was not. -/
def Stored (s : State) (pid : UInt32) (c : Call) : Prop :=
  if c.seen then ∃ args, s.curIptDoTableArgs.lookup pid = some args ∧ s.elems args = c.args
  else s.curIptDoTableArgs.lookup pid = none

/-- They are out of the map, and still in the memory. -/
def Kept (s : State) (pid : UInt32) (c : Call) (args : Nat) : Prop :=
  c.seen = true ∧ s.curIptDoTableArgs.lookup pid = none ∧ s.elems args = c.args

/-- Where the arguments of a call are. -/
def Element (s : State) (pid : UInt32) (c : Call) : Stage → Prop
  | .running => Stored s pid c
  | .lookup => Stored s pid c
  | .delete args => c.seen = true ∧ s.curIptDoTableArgs.lookup pid = some args ∧ s.elems args = c.args
  | .readSkb args => Kept s pid c args
  | .readHook args => Kept s pid c args
  | .readPf args => Kept s pid c args
  | .readTable args => Kept s pid c args
  | .submit => c.seen = true ∧ s.curIptDoTableArgs.lookup pid = none

/-- What holds of a call in progress. -/
structure CallOk (s : State) (pid : UInt32) (c : Call) : Prop where
  state : s.states c.args.state = c.hookState
  table : s.tables c.args.table = c.tableName
  evt : c.evt = filled pid c c.stage
  element : Element s pid c c.stage

/-- What holds in every state. -/
structure Inv (s : State) : Prop where
  calls : ∀ pid c, s.calls pid = some c → CallOk s pid c
  idle : ∀ pid, s.calls pid = none → s.curIptDoTableArgs.lookup pid = none
  right : ∀ r ∈ s.returned, r.Right

theorem inv_init (elems : Nat → Args) (states : UInt64 → HookState) (tables : UInt64 → Buf 32) :
    Inv (State.init elems states tables) where
  calls _ _ h := by cases h
  idle _ _ := rfl
  right _ h := by cases h

/-- Steps of others: a call goes on as before where its entry in the map, the
memory it points to and the memory of the kernel are as before. -/
theorem CallOk.frame {s s' : State} {pid : UInt32} {c : Call} (h : CallOk s pid c)
    (hmap : s'.curIptDoTableArgs.lookup pid = s.curIptDoTableArgs.lookup pid)
    (helems : ∀ args, s.curIptDoTableArgs.lookup pid = some args ∨ c.stage.pointer = some args →
      s'.elems args = s.elems args)
    (hstates : s'.states c.args.state = s.states c.args.state)
    (htables : s'.tables c.args.table = s.tables c.args.table) : CallOk s' pid c where
  state := hstates.trans h.state
  table := htables.trans h.table
  evt := h.evt
  element := by
    have hel := h.element
    have hstored : Stored s pid c → Stored s' pid c := by
      simp only [Stored, hmap]
      split
      · rintro ⟨args, hargs, he⟩
        exact ⟨args, hargs, (helems args (Or.inl hargs)).trans he⟩
      · exact id
    have hkept : ∀ args, c.stage.pointer = some args → Kept s pid c args → Kept s' pid c args := by
      rintro args hptr ⟨hseen, hnone, he⟩
      exact ⟨hseen, hmap.trans hnone, (helems args (Or.inr hptr)).trans he⟩
    cases hst : c.stage with
    | running => rw [hst] at hel; exact hstored hel
    | lookup => rw [hst] at hel; exact hstored hel
    | delete args =>
        rw [hst] at hel
        exact ⟨hel.1, hmap.trans hel.2.1, (helems args (Or.inl hel.2.1)).trans hel.2.2⟩
    | readSkb args => rw [hst] at hel; exact hkept args (by rw [hst]; rfl) hel
    | readHook args => rw [hst] at hel; exact hkept args (by rw [hst]; rfl) hel
    | readPf args => rw [hst] at hel; exact hkept args (by rw [hst]; rfl) hel
    | readTable args => rw [hst] at hel; exact hkept args (by rw [hst]; rfl) hel
    | submit => rw [hst] at hel; exact ⟨hel.1, hmap.trans hel.2⟩

/-- A step of one thread: the others are as before, so what is left is the call
of the thread itself, if it has one now. -/
theorem Inv.of_thread {s s' : State} {pid : UInt32} (h : Inv s) (now : Option Call)
    (hcalls : s'.calls = Function.update s.calls pid now)
    (hmap : ∀ k, k ≠ pid → s'.curIptDoTableArgs.lookup k = s.curIptDoTableArgs.lookup k)
    (helems : ∀ k c, k ≠ pid → s.calls k = some c → ∀ args,
      s.curIptDoTableArgs.lookup k = some args ∨ c.stage.pointer = some args →
      s'.elems args = s.elems args)
    (hstates : s'.states = s.states) (htables : s'.tables = s.tables)
    (hown : ∀ c, now = some c → CallOk s' pid c)
    (hidle : now = none → s'.curIptDoTableArgs.lookup pid = none)
    (hright : ∀ r ∈ s'.returned, r.Right) : Inv s' where
  calls k c hc := by
    by_cases hk : k = pid
    · rw [hk, hcalls, Function.update_self] at hc
      exact hk ▸ hown c hc
    · rw [hcalls, Function.update_of_ne hk] at hc
      exact (h.calls k c hc).frame (hmap k hk) (helems k c hk hc) (by rw [hstates]) (by rw [htables])
  idle k hnone := by
    by_cases hk : k = pid
    · rw [hk, hcalls, Function.update_self] at hnone
      exact hk ▸ hidle hnone
    · rw [hcalls, Function.update_of_ne hk] at hnone
      exact (hmap k hk).trans (h.idle k hnone)
  right := hright

theorem Inv.move {s : State} {pid : UInt32} {c : Call} (h : Inv s)
    (hc : CallOk (s.move pid c) pid c) :
    Inv (s.move pid c) :=
  h.of_thread (some _) rfl (fun _ _ => rfl) (fun _ _ _ _ _ _ => rfl) rfl rfl
    (fun c' hc' => by cases hc'; exact hc) (fun hnone => by cases hnone) h.right

theorem Inv.finish {s : State} {pid : UInt32} {c : Call} {emitted : List EventData} (h : Inv s)
    (hmap : s.curIptDoTableArgs.lookup pid = none)
    (hright : emitted = if c.seen then [eventOf pid c] else []) : Inv (s.finish pid c emitted) := by
  refine h.of_thread none rfl (fun _ _ => rfl) (fun _ _ _ _ _ _ => rfl) rfl rfl
    (fun c' hc' => by cases hc') (fun _ => hmap) ?_
  intro r hr
  rcases List.mem_append.mp hr with hr | hr
  · exact h.right r hr
  · obtain rfl := List.mem_singleton.mp hr
    exact hright

/-! ## Each step keeps it -/

/-- The event is right because the memory still has the arguments of the call:
each read fills in what `filled` says. -/
theorem Inv.probe {s s' : State} {pid : UInt32} (h : Inv s)
    (hstep : kretprobeIptDoTable s pid = some s') : Inv s' := by
  obtain ⟨c, hc, hmove⟩ := kretprobe_cases hstep
  obtain ⟨hstate, htable, hevt, helement⟩ := h.calls pid c hc
  generalize hst : c.stage = stage at hmove hevt helement
  cases hmove with
  | gone hnone =>
      refine h.finish hnone ?_
      have hseen : c.seen = false := by
        cases hseen : c.seen with
        | false => rfl
        | true =>
            simp only [Element, Stored, hseen, if_true, hnone] at helement
            obtain ⟨args, hargs, -⟩ := helement
            cases hargs
      simp [hseen]
  | found hargs =>
      rename_i args
      refine h.move ⟨hstate, htable, hevt, ?_⟩
      cases hseen : c.seen with
      | false =>
          simp only [Element, Stored, hseen, Bool.false_eq_true, if_false, hargs] at helement
          cases helement
      | true =>
          simp only [Element, Stored, hseen, if_true] at helement
          obtain ⟨args', hargs', he⟩ := helement
          obtain rfl : args' = args := Option.some.inj (hargs'.symm.trans hargs)
          exact ⟨rfl, hargs', he⟩
  | delete hmap =>
      obtain ⟨hseen, -, he⟩ := helement
      refine h.of_thread (some _) rfl (fun k hk => ?_) (fun _ _ _ _ _ _ => rfl) rfl rfl ?_
        (fun hnone => by cases hnone) h.right
      · exact (hmap k).trans (if_neg hk)
      · intro c' hc'
        obtain rfl := Option.some.inj hc'
        exact ⟨hstate, htable, hevt, hseen, (hmap pid).trans (if_pos rfl), he⟩
  | readSkb =>
      refine h.move ⟨hstate, htable, ?_, helement⟩
      simp only [hevt, filled, helement.2.2]
  | readHook =>
      refine h.move ⟨hstate, htable, ?_, helement⟩
      simp only [hevt, filled, helement.2.2, hstate]
  | readPf =>
      refine h.move ⟨hstate, htable, ?_, helement⟩
      simp only [hevt, filled, helement.2.2, hstate]
  | readTable =>
      refine h.move ⟨hstate, htable, ?_, helement.1, helement.2.1⟩
      simp only [hevt, filled, helement.2.2, htable]
  | submit =>
      refine h.finish helement.2 ?_
      simp only [helement.1, if_true, hevt, filled, eventOf]
      rfl

/-! ## A return probe comes to its end -/

/-- The steps that are left. -/
def Stage.left : Stage → Nat
  | .running => 0
  | .lookup => 7
  | .delete _ => 6
  | .readSkb _ => 5
  | .readHook _ => 4
  | .readPf _ => 3
  | .readTable _ => 2
  | .submit => 1

/-- A step ends the return probe, or has fewer steps after it. -/
theorem ProbeMove.ends_or_goes_on {s s' : State} {pid : UInt32} {c : Call} {stage : Stage}
    (h : ProbeMove s pid c stage s') :
    (∃ emitted, s'.returned = s.returned ++ [⟨pid, c, emitted⟩]) ∨
      ∃ stage' evt, s'.calls pid = some { c with stage := stage', evt := evt } ∧
        stage' ≠ .running ∧ stage'.left < stage.left ∧ s'.returned = s.returned := by
  have hgoes : ∀ (s₁ : State) (stage' : Stage) (evt : EventData), stage' ≠ .running →
      stage'.left < stage.left → s₁.returned = s.returned →
      ∃ stage'' evt', (s₁.move pid { c with stage := stage', evt := evt }).calls pid
          = some { c with stage := stage'', evt := evt' } ∧
        stage'' ≠ .running ∧ stage''.left < stage.left ∧ s₁.returned = s.returned :=
    fun s₁ stage' evt hst hleft hret => ⟨stage', evt, Function.update_self _ _ _, hst, hleft, hret⟩
  cases h with
  | gone _ => exact Or.inl ⟨_, rfl⟩
  | found _ => exact Or.inr (hgoes s _ c.evt (by simp) (by simp [Stage.left]) rfl)
  | delete _ => exact Or.inr (hgoes _ _ c.evt (by simp) (by simp [Stage.left]) rfl)
  | readSkb => exact Or.inr (hgoes s _ _ (by simp) (by simp [Stage.left]) rfl)
  | readHook => exact Or.inr (hgoes s _ _ (by simp) (by simp [Stage.left]) rfl)
  | readPf => exact Or.inr (hgoes s _ _ (by simp) (by simp [Stage.left]) rfl)
  | readTable => exact Or.inr (hgoes s _ _ (by simp) (by simp [Stage.left]) rfl)
  | submit => exact Or.inl ⟨_, rfl⟩

section Runs
variable [HashOrder UInt32]

/-- Its own steps bring a return probe to its end, from any state. -/
theorem probe_ends {s : State} {pid : UInt32} {c : Call} (hc : s.calls pid = some c)
    (hstage : c.stage ≠ .running) :
    ∃ n s' stage evt emitted, exec iptStep s (List.replicate n (.probe pid)) = some s' ∧
      s'.returned = s.returned ++ [⟨pid, { c with stage := stage, evt := evt }, emitted⟩] := by
  induction hleft : c.stage.left using Nat.strong_induction_on generalizing s c with
  | h left ih =>
      obtain ⟨s₁, hstep, hmove⟩ := kretprobe_move hc hstage
      rcases hmove.ends_or_goes_on with ⟨emitted, hret⟩ | ⟨stage, evt, hc₁, hst, hlt, hret⟩
      · exact ⟨1, s₁, c.stage, c.evt, emitted, exec_cons.mpr ⟨s₁, hstep, rfl⟩, hret⟩
      · obtain ⟨n, s', stage', evt', emitted, hexec, hret'⟩ :=
          ih stage.left (hleft ▸ hlt) hc₁ hst rfl
        refine ⟨n + 1, s', stage', evt', emitted, ?_, ?_⟩
        · rw [List.replicate_succ]
          exact exec_cons.mpr ⟨s₁, hstep, hexec⟩
        · rw [hret', hret]

/-- An entry that is alone puts its arguments into the map, into memory that
nobody reads. -/
theorem Inv.enter {s s' : State} {pid : UInt32} {args : Args} {addr : Nat} (h : Inv s)
    (halone : Alone s (.enter pid args addr))
    (hstep : kprobeIptDoTable s pid args addr = some s') : Inv (s'.begin pid args true) := by
  obtain ⟨hothers, hunread⟩ := halone
  have hroom : s.curIptDoTableArgs.entries.length < 1 ∨
      ∃ w, s.curIptDoTableArgs.lookup pid = some w := by
    cases hes : s.curIptDoTableArgs.entries with
    | nil => exact Or.inl Nat.one_pos
    | cons e es =>
        have hmem : e ∈ s.curIptDoTableArgs.entries := hes ▸ List.mem_cons_self
        refine Or.inr ⟨e.2, HashMap.lookup_eq_some_iff.mpr ?_⟩
        rw [← hothers e hmem]
        exact hmem
  obtain ⟨map, hupdate⟩ := HashMap.update_any_ok (v := addr) hroom
  rw [kprobeIptDoTable, hupdate] at hstep
  simp only at hstep
  split at hstep
  · cases hstep
  · rename_i hfresh
    obtain rfl := Option.some.inj hstep
    have hmap := HashMap.lookup_update hupdate
    refine h.of_thread (some _) rfl (fun k hk => (hmap k).trans (if_neg hk)) ?_ rfl rfl ?_
      (fun hnone => by cases hnone) h.right
    · intro k c hk hc a ha
      refine Function.update_of_ne ?_ _ _
      rintro rfl
      rcases ha with ha | ha
      · exact hfresh (List.mem_map.mpr ⟨(k, a), HashMap.lookup_eq_some_iff.mp ha, rfl⟩)
      · exact hunread k c hc ha
    · intro c hc
      obtain rfl := Option.some.inj hc
      exact ⟨rfl, rfl, rfl, addr, (hmap pid).trans (if_pos rfl), Function.update_self _ _ _⟩

/-- What a step allowed by both conditions keeps. -/
theorem Inv.step {s s' : State} {a : Action} (h : Inv s) (hok : KernelKeeps s a ∧ Alone s a)
    (hstep : iptStep s a = some s') : Inv s' := by
  cases a with
  | enter pid args addr =>
      cases hcall : s.calls pid with
      | some c => simp [iptStep, hcall] at hstep
      | none =>
          simp only [iptStep, hcall] at hstep
          obtain ⟨s₁, hs₁, rfl⟩ := Option.map_eq_some_iff.mp hstep
          exact h.enter hok.2 hs₁
  | enterUnseen pid args =>
      cases hcall : s.calls pid with
      | some c => simp [iptStep, hcall] at hstep
      | none =>
          simp only [iptStep, hcall, Option.some.injEq] at hstep
          subst hstep
          exact h.move ⟨rfl, rfl, rfl, h.idle pid hcall⟩
  | ret pid verdict =>
      cases hcall : s.calls pid with
      | none => simp [iptStep, hcall] at hstep
      | some c =>
          obtain ⟨hstate, htable, hevt, helement⟩ := h.calls pid c hcall
          simp only [iptStep, hcall] at hstep
          split at hstep
          · rename_i hst
            obtain rfl := Option.some.inj hstep
            rw [hst] at hevt helement
            exact h.move ⟨hstate, htable, hevt, helement⟩
          · cases hstep
  | probe pid => exact h.probe hstep
  | storeState addr v =>
      obtain rfl := Option.some.inj hstep
      refine ⟨fun k c hc => ?_, h.idle, h.right⟩
      exact (h.calls k c hc).frame rfl (fun _ _ => rfl)
        (Function.update_of_ne (hok.1 k c hc) _ _) rfl
  | storeTable addr name =>
      obtain rfl := Option.some.inj hstep
      refine ⟨fun k c hc => ?_, h.idle, h.right⟩
      exact (h.calls k c hc).frame rfl (fun _ _ => rfl) rfl
        (Function.update_of_ne (hok.1 k c hc) _ _)

theorem Inv.probes {s s' : State} {pid : UInt32} {n : Nat} (h : Inv s)
    (hrun : exec iptStep s (List.replicate n (.probe pid)) = some s') : Inv s' := by
  induction n generalizing s with
  | zero =>
      cases hrun
      exact h
  | succ n ih =>
      obtain ⟨s₁, hstep, hrest⟩ := exec_cons.mp hrun
      exact ih (h.probe hstep) hrest

/-- In a run where every entry is alone, every return whose entry was seen has
sent its own event and nothing else, and a return probe under way will. -/
theorem returns_right (elems : Nat → Args) (states : UInt64 → HookState) (tables : UInt64 → Buf 32)
    (tr : List Action) (s : State)
    (hkernel : Meets iptStep KernelKeeps (State.init elems states tables) tr)
    (halone : Meets iptStep Alone (State.init elems states tables) tr)
    (hrun : exec iptStep (State.init elems states tables) tr = some s) :
    (∀ r ∈ s.returned, r.Right) ∧
      ∀ pid c, s.calls pid = some c → c.stage ≠ .running →
        ∃ n s' stage evt, exec iptStep s (List.replicate n (.probe pid)) = some s' ∧
          s'.returned = s.returned ++ [⟨pid, { c with stage := stage, evt := evt },
            if c.seen then [eventOf pid c] else []⟩] := by
  have hinv : Inv s := exec_invariant_of (fun s a => KernelKeeps s a ∧ Alone s a)
    (fun s a s' h hok hstep => h.step hok hstep) tr (inv_init elems states tables)
    (hkernel.and halone) hrun
  refine ⟨hinv.right, ?_⟩
  intro pid c hc hstage
  obtain ⟨n, s', stage, evt, emitted, hexec, hret⟩ := probe_ends hc hstage
  have hright : emitted = if c.seen then [eventOf pid c] else [] :=
    (hinv.probes hexec).right ⟨pid, { c with stage := stage, evt := evt }, emitted⟩
      (by rw [hret]; exact List.mem_append_right _ List.mem_cons_self)
  exact ⟨n, s', stage, evt, hexec, hright ▸ hret⟩

end Runs

/-! ## Two runs -/

/-- The thread an action is of. -/
def Action.thread : Action → Option UInt32
  | .enter pid _ _ => some pid
  | .enterUnseen pid _ => some pid
  | .ret pid _ => some pid
  | .probe pid => some pid
  | .storeState _ _ => none
  | .storeTable _ _ => none

/-- The action is of one of these threads, and both conditions hold as far as
the calls of these threads go. -/
def okAmong (pids : List UInt32) (s : State) (a : Action) : Bool :=
  a.thread.all (pids.contains ·) &&
    match a with
    | .enter pid _ addr => s.curIptDoTableArgs.entries.all (·.1 == pid) &&
        pids.all fun pid' => (s.calls pid').all (·.stage.pointer != some addr)
    | .storeState addr _ => pids.all fun pid => (s.calls pid).all (·.args.state != addr)
    | .storeTable addr _ => pids.all fun pid => (s.calls pid).all (·.args.table != addr)
    | _ => true

/-- No other thread has a call. -/
def CallsAmong (pids : List UInt32) (s : State) : Prop :=
  ∀ pid c, s.calls pid = some c → pid ∈ pids

theorem CallsAmong.all {pids : List UInt32} {s : State} (h : CallsAmong pids s) {p : Call → Bool}
    (hall : (pids.all fun pid => (s.calls pid).all p) = true) {pid : UInt32} {c : Call}
    (hc : s.calls pid = some c) : p c = true := by
  have hpid := List.all_eq_true.mp hall pid (h pid c hc)
  rwa [hc] at hpid

theorem CallsAmong.ok {pids : List UInt32} {s : State} {a : Action} (h : CallsAmong pids s)
    (hok : okAmong pids s a = true) : KernelKeeps s a ∧ Alone s a := by
  have hrest := (Bool.and_eq_true_iff.mp hok).2
  cases a with
  | enter pid args addr =>
      obtain ⟨hentries, hcalls⟩ := Bool.and_eq_true_iff.mp hrest
      exact ⟨trivial, fun e he => beq_iff_eq.mp (List.all_eq_true.mp hentries e he),
        fun pid' c hc => bne_iff_ne.mp (h.all hcalls hc)⟩
  | storeState addr v => exact ⟨fun pid c hc => bne_iff_ne.mp (h.all hrest hc), trivial⟩
  | storeTable addr name => exact ⟨fun pid c hc => bne_iff_ne.mp (h.all hrest hc), trivial⟩
  | _ => exact ⟨trivial, trivial⟩

theorem mem_of_okAmong {pids : List UInt32} {s : State} {a : Action} {pid : UInt32}
    (hok : okAmong pids s a = true) (ha : a.thread = some pid) : pid ∈ pids := by
  have hthread := (Bool.and_eq_true_iff.mp hok).1
  rw [ha] at hthread
  exact List.contains_iff_mem.mp hthread

/-- A step changes no call but that of its thread. -/
theorem CallsAmong.of_thread {pids : List UInt32} {s s' : State} {pid : UInt32} {now : Option Call}
    (h : CallsAmong pids s) (hpid : pid ∈ pids)
    (hcalls : s'.calls = Function.update s.calls pid now) : CallsAmong pids s' := by
  intro k c hc
  by_cases hk : k = pid
  · exact hk ▸ hpid
  · rw [hcalls, Function.update_of_ne hk] at hc
    exact h k c hc

theorem ProbeMove.calls {s s' : State} {pid : UInt32} {c : Call} {stage : Stage}
    (h : ProbeMove s pid c stage s') : ∃ now, s'.calls = Function.update s.calls pid now := by
  cases h <;> exact ⟨_, rfl⟩

theorem CallsAmong.step [HashOrder UInt32] {pids : List UInt32} {s s' : State} {a : Action}
    (h : CallsAmong pids s) (hok : okAmong pids s a = true) (hstep : iptStep s a = some s') :
    CallsAmong pids s' := by
  cases a with
  | enter pid args addr =>
      have hpid := mem_of_okAmong hok rfl
      cases hcall : s.calls pid with
      | some c => simp [iptStep, hcall] at hstep
      | none =>
          simp only [iptStep, hcall] at hstep
          obtain ⟨s₁, hs₁, rfl⟩ := Option.map_eq_some_iff.mp hstep
          have hcalls : s₁.calls = s.calls := by
            rw [kprobeIptDoTable] at hs₁
            split at hs₁
            · split at hs₁
              · cases hs₁
              · obtain rfl := Option.some.inj hs₁
                rfl
            · obtain rfl := Option.some.inj hs₁
              rfl
          exact h.of_thread hpid (congrArg (Function.update · pid _) hcalls)
  | enterUnseen pid args =>
      cases hcall : s.calls pid with
      | some c => simp [iptStep, hcall] at hstep
      | none =>
          simp only [iptStep, hcall, Option.some.injEq] at hstep
          subst hstep
          exact h.of_thread (mem_of_okAmong hok rfl) rfl
  | ret pid verdict =>
      cases hcall : s.calls pid with
      | none => simp [iptStep, hcall] at hstep
      | some c =>
          simp only [iptStep, hcall] at hstep
          split at hstep
          · obtain rfl := Option.some.inj hstep
            exact h.of_thread (mem_of_okAmong hok rfl) rfl
          · cases hstep
  | probe pid =>
      obtain ⟨c, -, hmove⟩ := kretprobe_cases hstep
      obtain ⟨now, hcalls⟩ := hmove.calls
      exact h.of_thread (mem_of_okAmong hok rfl) hcalls
  | storeState addr v =>
      obtain rfl := Option.some.inj hstep
      exact h
  | storeTable addr name =>
      obtain rfl := Option.some.inj hstep
      exact h

/-- So the conditions of a run can be checked for the calls of its threads. -/
theorem meets_of_okAmong [HashOrder UInt32] {pids : List UInt32} {s : State} {tr : List Action}
    (hs : CallsAmong pids s) (h : Meets iptStep (fun s a => okAmong pids s a = true) s tr) :
    Meets iptStep KernelKeeps s tr ∧ Meets iptStep Alone s tr :=
  ⟨Meets.imp (fun _ _ _ hI hok hst => hI.step hok hst) (fun _ _ hI hok => (hI.ok hok).1) hs h,
    Meets.imp (fun _ _ _ hI hok hst => hI.step hok hst) (fun _ _ hI hok => (hI.ok hok).2) hs h⟩

/-- Memory in which a hook and a table are told by their address. -/
def distinctStart : State :=
  State.init (fun _ => ⟨0, 0, 0, 0⟩) (fun addr => ⟨addr.toUInt32, 2⟩)
    (fun addr => padded 32 [addr.toUInt8])

/-- Thread 8 enters when thread 7 has deleted its arguments and not yet read
them, and gets other memory; the kernel writes to a hook state that nobody
uses; thread 9, whose entry was not seen, returns among the reads. -/
def interleavedCalls : List Action :=
  [.enter 7 ⟨100, 1, 10, 1⟩ 0, .enterUnseen 9 ⟨102, 3, 12, 3⟩, .ret 7 1, .probe 7, .probe 7,
    .enter 8 ⟨101, 2, 11, 2⟩ 1, .storeState 4 ⟨9, 9⟩, .probe 7, .probe 7, .ret 9 0, .ret 8 0,
    .probe 9, .probe 8, .probe 7, .probe 8, .probe 7, .probe 7, .probe 8,
    .storeTable 10 (Buf.zero 32), .probe 8, .probe 8, .probe 8, .probe 8]

theorem returns_right_interleavedCalls :
    ∃ s, exec (@iptStep ⟨fun _ => 0⟩) distinctStart interleavedCalls = some s ∧
      s.returned.map (fun r => (r.pid, r.emitted)) =
        [(9, []), (7, [⟨100, 7, 1, 1, 2, Buf.zero 3, padded 32 [10]⟩]),
          (8, [⟨101, 8, 2, 0, 2, Buf.zero 3, padded 32 [11]⟩])] ∧
      ∀ r ∈ s.returned, r.Right := by
  have hrun : (exec (@iptStep ⟨fun _ => 0⟩) distinctStart interleavedCalls).map
      (fun s => s.returned.map (fun r => (r.pid, r.emitted)))
      = some [(9, []), (7, [⟨100, 7, 1, 1, 2, Buf.zero 3, padded 32 [10]⟩]),
          (8, [⟨101, 8, 2, 0, 2, Buf.zero 3, padded 32 [11]⟩])] := by
    decide +kernel
  obtain ⟨s, hs, hemitted⟩ := Option.map_eq_some_iff.mp hrun
  have hok : Meets (@iptStep ⟨fun _ => 0⟩) (fun s a => okAmong [7, 8, 9] s a = true) distinctStart
      interleavedCalls := by
    decide +kernel
  obtain ⟨hkernel, halone⟩ := @meets_of_okAmong ⟨fun _ => 0⟩ _ _ _
    (fun _ _ hc => by cases hc) hok
  exact ⟨s, hs, hemitted, (@returns_right ⟨fun _ => 0⟩ _ _ _ interleavedCalls s hkernel halone hs).1⟩

/-- Memory with an IPv4 hook 1 behind every pointer. -/
def sampleStart : State :=
  State.init (fun _ => ⟨0, 0, 0, 0⟩) (fun _ => ⟨1, 2⟩) (fun _ => Buf.zero 32)

/-- A second thread enters before the first has returned, and returns. -/
def overlappingCalls : List Action :=
  [.enter 7 ⟨100, 200, 300, 1⟩ 0, .enter 8 ⟨101, 201, 300, 2⟩ 1, .ret 8 1, .probe 8]

/-- The event of the second thread is lost. -/
theorem returns_overlappingCalls :
    ¬ ∀ tr s, Meets (@iptStep ⟨fun _ => 0⟩) KernelKeeps sampleStart tr →
      exec (@iptStep ⟨fun _ => 0⟩) sampleStart tr = some s → ∀ r ∈ s.returned, r.Right := by
  intro h
  have hrun : (exec (@iptStep ⟨fun _ => 0⟩) sampleStart overlappingCalls).map
      (fun s => decide (∀ r ∈ s.returned, r.Right)) = some false := by
    decide +kernel
  obtain ⟨s, hs, hwrong⟩ := Option.map_eq_some_iff.mp hrun
  refine of_decide_eq_false hwrong (h overlappingCalls s (meets_of_forall ?_) hs)
  simp [overlappingCalls, KernelKeeps]

end NetProbes.Netfilter.IptTable
