/-
# `NetProbes.TcpRtt.Options` — what the filter options of `tcprtt` mean

An argument of `-a`, `-A`, `-p` or `-P` goes through `parse_arg` into `env`,
from there into the constants of the probe and is then compared with the
socket's fields, which are in network order; `0` means no filter.

    ports      strtoul, cut to 16 bits, htons: right for every numeral in
               1..65535, but anything below 2^64 is accepted
    addresses  inet_aton gives network order already, and htonl reverses it;
               inet_aton returns 0 for what is no address, and the check is
               for less than 0, so `addr` is then used as the stack had it

So a filter means what was typed only for addresses that read the same
backwards (`filters_mean_iff`).
-/
import NetProbes.TcpRtt.Sequential
import NetProbes.Lib.CString

namespace NetProbes.TcpRtt

open NetProbes.Lib

/-! ## `parse_arg` -/

/-- The options, by their long names. -/
inductive Key where
  | help
  | verbose
  | interval
  | duration
  | timestamp
  | millisecond
  | lport
  | rport
  | laddr
  | raddr
  | byladdr
  | byraddr
  | extension
  deriving DecidableEq

/-- `struct env`. -/
structure Env where
  lport : UInt16
  rport : UInt16
  laddr : UInt32
  raddr : UInt32
  milliseconds : Bool
  duration : Int
  interval : Int
  timestamp : Bool
  laddrHist : Bool
  raddrHist : Bool
  extended : Bool
  verbose : Bool

/-- The static `env`. -/
def Env.init : Env where
  lport := 0
  rport := 0
  laddr := 0
  raddr := 0
  milliseconds := false
  duration := 0
  interval := 99999999
  timestamp := false
  laddrHist := false
  raddrHist := false
  extended := false
  verbose := false

/-- One call of `parse_arg`: the option, its argument, and what the stack holds
where the uninitialised `addr` is. -/
structure Given where
  key : Key
  arg : List UInt8
  addr : UInt32

/-- `-i` and `-d`; `none` where `argp_usage` ends the program. -/
def parseSeconds (arg : List UInt8) : Option Int :=
  let v := (strtol arg).1
  if strtolErange arg ∨ v ≤ 0 then none else some v

/-- `-p` and `-P`. -/
def parsePort (arg : List UInt8) : Option UInt16 :=
  let (v, erange) := strtoul arg
  if erange then none else some (bswap16 (UInt16.ofNat v))

/-- What `inet_aton` returns. -/
def inetAtonRet (arg : List UInt8) : Int := if (inetAton arg).isSome then 1 else 0

/-- `-a` and `-A`.  `inet_aton` leaves `addr` alone where it fails. -/
def parseAddr (addr : UInt32) (arg : List UInt8) : Option UInt32 :=
  if inetAtonRet arg < 0 then none else some (bswap32 ((inetAton arg).getD addr))

/-- `parse_arg`; `none` where it ends the program. -/
def parseArg (env : Env) (g : Given) : Option Env :=
  match g.key with
  | .help => none
  | .verbose => some { env with verbose := true }
  | .interval => (parseSeconds g.arg).map fun v => { env with interval := v }
  | .duration => (parseSeconds g.arg).map fun v => { env with duration := v }
  | .timestamp => some { env with timestamp := true }
  | .millisecond => some { env with milliseconds := true }
  | .lport => (parsePort g.arg).map fun v => { env with lport := v }
  | .rport => (parsePort g.arg).map fun v => { env with rport := v }
  | .laddr => (parseAddr g.addr g.arg).map fun v => { env with laddr := v }
  | .raddr => (parseAddr g.addr g.arg).map fun v => { env with raddr := v }
  | .byladdr => some { env with laddrHist := true }
  | .byraddr => some { env with raddrHist := true }
  | .extension => some { env with extended := true }

/-- The constants `main` sets from `env`. -/
def Env.rodata (env : Env) : Config where
  targLaddrHist := env.laddrHist
  targRaddrHist := env.raddrHist
  targShowExt := env.extended
  targSport := env.lport
  targDport := env.rport
  targSaddr := env.laddr
  targDaddr := env.raddr
  targMs := env.milliseconds

/-! ## What the arguments denote -/

/-- A decimal port in 1..65535. -/
def portOf (arg : List UInt8) : Option UInt16 :=
  match decimal arg with
  | some n => if 1 ≤ n ∧ n ≤ 65535 then some (UInt16.ofNat n) else none
  | none => none

namespace Given

/-- The program is to end here, for `-h` or because of the argument: no positive
number of seconds, or a port of more than 64 bits. -/
def Rejected (g : Given) : Prop :=
  match g.key with
  | .help => True
  | .interval | .duration => strtolErange g.arg ∨ (strtol g.arg).1 ≤ 0
  | .lport | .rport => (strtoul g.arg).2 = true
  | _ => False

/-- The argument denotes something: an address, a port, a number of seconds. -/
def WellFormed (g : Given) : Prop :=
  match g.key with
  | .lport | .rport => ∃ n, portOf g.arg = some n
  | .laddr | .raddr => ∃ v, inetAton g.arg = some v
  | _ => ¬ g.Rejected

/-- The socket has the address or port that the argument denotes. -/
def Denotes (g : Given) (sk : Sock) : Prop :=
  match g.key with
  | .lport => (portOf g.arg).map bswap16 = some sk.inetSport
  | .rport => (portOf g.arg).map bswap16 = some sk.skcDport
  | .laddr => inetAton g.arg = some sk.inetSaddr
  | .raddr => inetAton g.arg = some sk.skcDaddr
  | _ => True

end Given

/-- The last argument given to an option. -/
def lastGiven (key : Key) : List Given → Option Given
  | [] => none
  | g :: given =>
      match lastGiven key given with
      | some g' => some g'
      | none => if g.key = key then some g else none

/-- The socket has every address and port that the arguments denote. -/
def Wanted (given : List Given) (sk : Sock) : Prop :=
  ∀ key g, lastGiven key given = some g → g.Denotes sk

/-- The options mean what was typed: the program ends over an argument that
denotes nothing, or all denote something and a sample is recorded exactly for
the sockets that are wanted (where the map has room for it). -/
def FiltersMean [HashOrder UInt64] (given : List Given) : Prop :=
  match exec parseArg Env.init given with
  | none => ∃ g ∈ given, ¬ g.WellFormed
  | some env => (∀ g ∈ given, g.WellFormed) ∧ ∀ (sk : Sock) (hists : HistMap),
      (hists.entries.length < 10240 ∨ ∃ hist, hists.lookup (keyOf env.rodata sk) = some hist) →
        (tcpRcv env.rodata sk hists ≠ hists ↔ Wanted given sk)

/-! ## What a run of `parse_arg` leaves -/

theorem inetAtonRet_nonneg (arg : List UInt8) : ¬ inetAtonRet arg < 0 := by
  unfold inetAtonRet
  split <;> decide

theorem parseAddr_eq (addr : UInt32) (arg : List UInt8) :
    parseAddr addr arg = some (bswap32 ((inetAton arg).getD addr)) :=
  if_neg (inetAtonRet_nonneg arg)

theorem parseSeconds_eq_none_iff (arg : List UInt8) :
    parseSeconds arg = none ↔ strtolErange arg ∨ (strtol arg).1 ≤ 0 := by
  simp only [parseSeconds]
  split
  · exact iff_of_true rfl ‹_›
  · exact iff_of_false (Option.some_ne_none _) ‹_›

theorem parsePort_eq_none_iff (arg : List UInt8) :
    parsePort arg = none ↔ (strtoul arg).2 = true := by
  simp only [parsePort]
  split
  · exact iff_of_true rfl ‹_›
  · exact iff_of_false (Option.some_ne_none _) ‹_›

/-- Whether a call ends the program is up to its option and argument. -/
theorem parseArg_eq_none_iff (env : Env) (g : Given) : parseArg env g = none ↔ g.Rejected := by
  obtain ⟨key, arg, addr⟩ := g
  cases key <;> simp [parseArg, Given.Rejected, parseSeconds_eq_none_iff, parsePort_eq_none_iff,
    parseAddr_eq]

theorem exec_parseArg_eq_none_iff (env : Env) (given : List Given) :
    exec parseArg env given = none ↔ ∃ g ∈ given, g.Rejected := by
  induction given generalizing env with
  | nil => simp [exec]
  | cons g given ih =>
      cases hg : parseArg env g with
      | none =>
          have hrej := (parseArg_eq_none_iff env g).mp hg
          simp only [exec, List.foldlM_cons, hg, Option.bind_eq_bind, Option.bind_none, true_iff]
          exact ⟨g, List.mem_cons_self, hrej⟩
      | some env₁ =>
          have hrej : ¬ g.Rejected := fun h => by
            rw [(parseArg_eq_none_iff env g).mpr h] at hg
            cases hg
          simp only [exec_step hg, ih, List.mem_cons, exists_eq_or_imp, hrej, false_or]

/-- A field that one option sets has the value of the last argument of that
option. -/
theorem field_of_run {β : Type} (field : Env → β) (key : Key) (val : Given → β)
    (hstep : ∀ env g env', parseArg env g = some env' →
      field env' = if g.key = key then val g else field env)
    {given : List Given} {env env' : Env} (hrun : exec parseArg env given = some env') :
    field env' = ((lastGiven key given).map val).getD (field env) := by
  induction given generalizing env with
  | nil =>
      cases hrun
      rfl
  | cons g given ih =>
      obtain ⟨env₁, hg, htail⟩ := exec_cons.mp hrun
      rw [ih htail, hstep env g env₁ hg, lastGiven]
      cases lastGiven key given with
      | some g' => rfl
      | none =>
          by_cases hk : g.key = key
          · simp [hk]
          · simp [hk]

theorem lastGiven_mem {key : Key} {given : List Given} {g : Given}
    (h : lastGiven key given = some g) : g ∈ given ∧ g.key = key := by
  induction given with
  | nil => cases h
  | cons g₁ given ih =>
      simp only [lastGiven] at h
      split at h
      · rename_i g' hg'
        cases h
        exact ⟨List.mem_cons_of_mem _ (ih hg').1, (ih hg').2⟩
      · split at h
        · rename_i hk
          cases h
          exact ⟨List.mem_cons_self, hk⟩
        · cases h

/-- The port filter that the last argument of an option sets. -/
def portFilter (o : Option Given) : UInt16 := (o.map fun g => (parsePort g.arg).getD 0).getD 0

/-- The address filter that the last argument of an option sets. -/
def addrFilter (o : Option Given) : UInt32 :=
  (o.map fun g => bswap32 ((inetAton g.arg).getD g.addr)).getD 0

/-- Each of the four options sets its own filter, and no other does. -/
theorem parseArg_filters {env env' : Env} {g : Given} (h : parseArg env g = some env') :
    env'.lport = (if g.key = .lport then (parsePort g.arg).getD 0 else env.lport) ∧
    env'.rport = (if g.key = .rport then (parsePort g.arg).getD 0 else env.rport) ∧
    env'.laddr = (if g.key = .laddr then bswap32 ((inetAton g.arg).getD g.addr) else env.laddr) ∧
    env'.raddr = (if g.key = .raddr then bswap32 ((inetAton g.arg).getD g.addr) else env.raddr) := by
  obtain ⟨key, arg, addr⟩ := g
  cases key with
  | help => cases h
  | interval =>
      obtain ⟨v, -, rfl⟩ := Option.map_eq_some_iff.mp h
      exact ⟨rfl, rfl, rfl, rfl⟩
  | duration =>
      obtain ⟨v, -, rfl⟩ := Option.map_eq_some_iff.mp h
      exact ⟨rfl, rfl, rfl, rfl⟩
  | lport =>
      obtain ⟨v, hv, rfl⟩ := Option.map_eq_some_iff.mp h
      exact ⟨by simp only [hv, Option.getD_some, if_true], rfl, rfl, rfl⟩
  | rport =>
      obtain ⟨v, hv, rfl⟩ := Option.map_eq_some_iff.mp h
      exact ⟨rfl, by simp only [hv, Option.getD_some, if_true], rfl, rfl⟩
  | laddr =>
      simp only [parseArg, parseAddr_eq, Option.map_some, Option.some.injEq] at h
      subst h
      exact ⟨rfl, rfl, rfl, rfl⟩
  | raddr =>
      simp only [parseArg, parseAddr_eq, Option.map_some, Option.some.injEq] at h
      subst h
      exact ⟨rfl, rfl, rfl, rfl⟩
  | _ =>
      cases h
      exact ⟨rfl, rfl, rfl, rfl⟩

/-- The four filters after the options. -/
theorem rodata_of_run {given : List Given} {env : Env}
    (hrun : exec parseArg Env.init given = some env) :
    env.rodata.targSport = portFilter (lastGiven .lport given) ∧
    env.rodata.targDport = portFilter (lastGiven .rport given) ∧
    env.rodata.targSaddr = addrFilter (lastGiven .laddr given) ∧
    env.rodata.targDaddr = addrFilter (lastGiven .raddr given) :=
  ⟨field_of_run Env.lport .lport _ (fun _ _ _ h => (parseArg_filters h).1) hrun,
    field_of_run Env.rport .rport _ (fun _ _ _ h => (parseArg_filters h).2.1) hrun,
    field_of_run Env.laddr .laddr _ (fun _ _ _ h => (parseArg_filters h).2.2.1) hrun,
    field_of_run Env.raddr .raddr _ (fun _ _ _ h => (parseArg_filters h).2.2.2) hrun⟩

/-! ## The filters and the sockets -/

theorem wanted_iff (given : List Given) (sk : Sock) :
    Wanted given sk ↔
      (∀ g, lastGiven .lport given = some g → (portOf g.arg).map bswap16 = some sk.inetSport) ∧
      (∀ g, lastGiven .rport given = some g → (portOf g.arg).map bswap16 = some sk.skcDport) ∧
      (∀ g, lastGiven .laddr given = some g → inetAton g.arg = some sk.inetSaddr) ∧
      (∀ g, lastGiven .raddr given = some g → inetAton g.arg = some sk.skcDaddr) := by
  constructor
  · intro h
    refine ⟨fun g hg => ?_, fun g hg => ?_, fun g hg => ?_, fun g hg => ?_⟩
    all_goals
      have hd := h _ g hg
      rw [Given.Denotes, (lastGiven_mem hg).2] at hd
      exact hd
  · rintro ⟨h₁, h₂, h₃, h₄⟩ key g hg
    rw [Given.Denotes, (lastGiven_mem hg).2]
    cases key with
    | lport => exact h₁ g hg
    | rport => exact h₂ g hg
    | laddr => exact h₃ g hg
    | raddr => exact h₄ g hg
    | _ => exact trivial

theorem portOf_eq_some {arg : List UInt8} {n : UInt16} (h : portOf arg = some n) :
    ∃ m, decimal arg = some m ∧ 1 ≤ m ∧ m ≤ 65535 ∧ n = UInt16.ofNat m := by
  unfold portOf at h
  split at h
  · rename_i m hm
    split at h
    · rename_i hrange
      cases h
      exact ⟨m, hm, hrange.1, hrange.2, rfl⟩
    · cases h
  · cases h

/-- A port that an argument denotes is filtered for. -/
theorem portFilter_iff {o : Option Given} (hwf : ∀ g, o = some g → ∃ n, portOf g.arg = some n)
    (x : UInt16) : (portFilter o ≠ 0 → portFilter o = x) ↔
      ∀ g, o = some g → (portOf g.arg).map bswap16 = some x := by
  cases o with
  | none => exact iff_of_true (fun h => absurd rfl h) fun g hg => by cases hg
  | some g =>
      obtain ⟨n, hn⟩ := hwf g rfl
      obtain ⟨m, hm, hlow, hhigh, hport⟩ := portOf_eq_some hn
      have hparse : parsePort g.arg = some (bswap16 n) := by
        simp [parsePort, strtoul_decimal hm (by omega), hport]
      have hne : n ≠ 0 := by
        intro hz
        have hmod := congrArg UInt16.toNat (hport.symm.trans hz)
        rw [UInt16.toNat_ofNat', Nat.mod_eq_of_lt (by omega)] at hmod
        have hzero : (0 : UInt16).toNat = 0 := rfl
        omega
      have hfilter : portFilter (some g) = bswap16 n := by simp [portFilter, hparse]
      have hset : bswap16 n ≠ 0 := fun hz => hne (bswap16_eq_zero_iff.mp hz)
      rw [hfilter]
      constructor
      · intro h g' hg'
        cases hg'
        rw [hn, Option.map_some, h hset]
      · intro h _
        have hx := h g rfl
        rw [hn, Option.map_some] at hx
        exact Option.some.inj hx

theorem addrFilter_some {g : Given} {v : UInt32} (hv : inetAton g.arg = some v) :
    addrFilter (some g) = bswap32 v := by
  simp [addrFilter, hv]

/-- An address that reads the same backwards, and is not 0, is filtered for. -/
theorem addrFilter_iff {o : Option Given}
    (hgood : ∀ g, o = some g → ∃ v, inetAton g.arg = some v ∧ bswap32 v = v ∧ v ≠ 0)
    (x : UInt32) : (addrFilter o ≠ 0 → addrFilter o = x) ↔
      ∀ g, o = some g → inetAton g.arg = some x := by
  cases o with
  | none => exact iff_of_true (fun h => absurd rfl h) fun g hg => by cases hg
  | some g =>
      obtain ⟨v, hv, hpal, hne⟩ := hgood g rfl
      rw [addrFilter_some hv, hpal]
      constructor
      · intro h g' hg'
        cases hg'
        rw [hv, h hne]
      · intro h _
        have hx := h g rfl
        rw [hv] at hx
        exact Option.some.inj hx

/-- A filter that lets the denoted address pass is that address, backwards the
same. -/
theorem bswap32_eq_of_passes {g : Given} {v : UInt32} (hv : inetAton g.arg = some v)
    (h : addrFilter (some g) ≠ 0 → addrFilter (some g) = v) : bswap32 v = v := by
  rw [addrFilter_some hv] at h
  by_cases hz : bswap32 v = 0
  · rw [hz, bswap32_eq_zero_iff.mp hz]
  · exact h hz

/-! ## Which sockets pass -/

/-- An argument over which the program ends denotes nothing. -/
theorem Given.not_wellFormed_of_rejected {g : Given} (h : g.Rejected) : ¬ g.WellFormed := by
  obtain ⟨key, arg, addr⟩ := g
  have hport : (strtoul arg).2 = true → ¬ ∃ n, portOf arg = some n := by
    rintro herr ⟨n, hn⟩
    obtain ⟨m, hm, _, hhigh, _⟩ := portOf_eq_some hn
    rw [strtoul_decimal hm (by omega)] at herr
    cases herr
  cases key with
  | lport => exact hport h
  | rport => exact hport h
  | laddr => exact h.elim
  | raddr => exact h.elim
  | _ => exact not_not.mpr h

section Given
variable {given : List Given} (hwf : ∀ g ∈ given, g.WellFormed)
include hwf

theorem port_of_wellFormed {key : Key} {g : Given} (hkey : key = .lport ∨ key = .rport)
    (hg : lastGiven key given = some g) : ∃ n, portOf g.arg = some n := by
  obtain ⟨hmem, hgk⟩ := lastGiven_mem hg
  have hw := hwf g hmem
  rw [Given.WellFormed, hgk] at hw
  rcases hkey with rfl | rfl
  · exact hw
  · exact hw

theorem addr_of_wellFormed {key : Key} {g : Given} (hkey : key = .laddr ∨ key = .raddr)
    (hg : lastGiven key given = some g) : ∃ v, inetAton g.arg = some v := by
  obtain ⟨hmem, hgk⟩ := lastGiven_mem hg
  have hw := hwf g hmem
  rw [Given.WellFormed, hgk] at hw
  rcases hkey with rfl | rfl
  · exact hw
  · exact hw

/-- With arguments that all denote something, the port filters are right, and
what the address filters do is left. -/
theorem accepts_rodata_iff {env : Env} (hrun : exec parseArg Env.init given = some env)
    (sk : Sock) : accepts env.rodata sk = true ↔
      (∀ g, lastGiven .lport given = some g → (portOf g.arg).map bswap16 = some sk.inetSport) ∧
      (∀ g, lastGiven .rport given = some g → (portOf g.arg).map bswap16 = some sk.skcDport) ∧
      (addrFilter (lastGiven .laddr given) ≠ 0 →
        addrFilter (lastGiven .laddr given) = sk.inetSaddr) ∧
      (addrFilter (lastGiven .raddr given) ≠ 0 →
        addrFilter (lastGiven .raddr given) = sk.skcDaddr) := by
  obtain ⟨hsport, hdport, hsaddr, hdaddr⟩ := rodata_of_run hrun
  rw [accepts_iff_passes, Sock.passes_iff, hsport, hdport, hsaddr, hdaddr,
    portFilter_iff (fun g hg => port_of_wellFormed hwf (Or.inl rfl) hg),
    portFilter_iff (fun g hg => port_of_wellFormed hwf (Or.inr rfl) hg)]

/-- A socket that has everything the arguments denote. -/
def wantedSock (given : List Given) : Sock where
  inetSport := (((lastGiven .lport given).bind fun g => portOf g.arg).map bswap16).getD 0
  skcDport := (((lastGiven .rport given).bind fun g => portOf g.arg).map bswap16).getD 0
  inetSaddr := ((lastGiven .laddr given).bind fun g => inetAton g.arg).getD 0
  skcDaddr := ((lastGiven .raddr given).bind fun g => inetAton g.arg).getD 0
  srttUs := 0

theorem wantedSock_wanted : Wanted given (wantedSock given) := by
  rw [wanted_iff]
  refine ⟨fun g hg => ?_, fun g hg => ?_, fun g hg => ?_, fun g hg => ?_⟩
  · obtain ⟨n, hn⟩ := port_of_wellFormed hwf (Or.inl rfl) hg
    simp [wantedSock, hg, hn]
  · obtain ⟨n, hn⟩ := port_of_wellFormed hwf (Or.inr rfl) hg
    simp [wantedSock, hg, hn]
  · obtain ⟨v, hv⟩ := addr_of_wellFormed hwf (Or.inl rfl) hg
    simp [wantedSock, hg, hv]
  · obtain ⟨v, hv⟩ := addr_of_wellFormed hwf (Or.inr rfl) hg
    simp [wantedSock, hg, hv]

/-- The addresses that count read the same backwards and are not 0. -/
def ReversibleAddrs (given : List Given) : Prop :=
  ∀ key g v, key = .laddr ∨ key = .raddr → lastGiven key given = some g →
    inetAton g.arg = some v → bswap32 v = v ∧ v ≠ 0

/-- Where the probe accepts exactly the wanted sockets the addresses are
reversible: a wanted socket passes its own filter, and a filter for 0 would let
every socket pass. -/
theorem reversible_of_accepts {env : Env} (hrun : exec parseArg Env.init given = some env)
    (h : ∀ sk, accepts env.rodata sk = true ↔ Wanted given sk) : ReversibleAddrs given := by
  have hw := wantedSock_wanted hwf
  obtain ⟨hl, hr, hs, hd⟩ := (accepts_rodata_iff hwf hrun _).mp ((h _).mpr hw)
  obtain ⟨-, -, hws, hwd⟩ := (wanted_iff given _).mp hw
  rintro key g v (rfl | rfl) hg hv
  · have hself : (wantedSock given).inetSaddr = v := Option.some.inj ((hws g hg).symm.trans hv)
    rw [hg, hself] at hs
    refine ⟨bswap32_eq_of_passes hv hs, ?_⟩
    rintro rfl
    have hpass : accepts env.rodata { wantedSock given with inetSaddr := 1 } = true := by
      refine (accepts_rodata_iff hwf hrun _).mpr ⟨hl, hr, fun hne => absurd ?_ hne, hd⟩
      rw [hg, addrFilter_some hv]
      rfl
    have hone := ((wanted_iff given _).mp ((h _).mp hpass)).2.2.1 g hg
    rw [hv] at hone
    cases hone
  · have hself : (wantedSock given).skcDaddr = v := Option.some.inj ((hwd g hg).symm.trans hv)
    rw [hg, hself] at hd
    refine ⟨bswap32_eq_of_passes hv hd, ?_⟩
    rintro rfl
    have hpass : accepts env.rodata { wantedSock given with skcDaddr := 1 } = true := by
      refine (accepts_rodata_iff hwf hrun _).mpr ⟨hl, hr, hs, fun hne => absurd ?_ hne⟩
      rw [hg, addrFilter_some hv]
      rfl
    have hone := ((wanted_iff given _).mp ((h _).mp hpass)).2.2.2 g hg
    rw [hv] at hone
    cases hone

theorem accepts_of_reversible {env : Env} (hrun : exec parseArg Env.init given = some env)
    (h : ReversibleAddrs given) (sk : Sock) : accepts env.rodata sk = true ↔ Wanted given sk := by
  have hgood : ∀ key, key = .laddr ∨ key = .raddr → ∀ g, lastGiven key given = some g →
      ∃ v, inetAton g.arg = some v ∧ bswap32 v = v ∧ v ≠ 0 := by
    intro key hkey g hg
    obtain ⟨v, hv⟩ := addr_of_wellFormed hwf hkey hg
    exact ⟨v, hv, h key g v hkey hg hv⟩
  rw [accepts_rodata_iff hwf hrun, wanted_iff, addrFilter_iff (hgood _ (Or.inl rfl)),
    addrFilter_iff (hgood _ (Or.inr rfl))]

end Given

/-! ## What the options mean -/

section Meaning
variable [HashOrder UInt64]

/-- Where there is room, the map changes for the sockets that pass. -/
theorem tcpRcv_ne_iff {cfg : Config} {sk : Sock} {hists : HistMap}
    (hroom : hists.entries.length < 10240 ∨ ∃ hist, hists.lookup (keyOf cfg sk) = some hist) :
    tcpRcv cfg sk hists ≠ hists ↔ accepts cfg sk = true := by
  constructor
  · intro hne
    by_contra hacc
    exact hne (by simp [tcpRcv, hacc])
  · intro hacc heq
    have hlook := tcpRcv_lookup hacc hroom (keyOf cfg sk)
    rw [heq, if_pos rfl] at hlook
    cases hl : hists.lookup (keyOf cfg sk) with
    | none =>
        rw [hl] at hlook
        cases hlook
    | some hist =>
        -- a sample raises the count of its slot
        rw [hl, Option.getD_some] at hlook
        have hslots := congrArg (fun h => h.slots (slotOf (srttOf cfg sk))) (Option.some.inj hlook)
        have hnat := congrArg UInt32.toNat hslots
        simp only [Hist.addSample_slots, if_true, UInt32.toNat_add, UInt32.toNat_one] at hnat
        omega

theorem reversible_of_filtersMean {given : List Given} {env : Env}
    (hrun : exec parseArg Env.init given = some env) (h : FiltersMean given) :
    (∀ g ∈ given, g.WellFormed) ∧ ReversibleAddrs given := by
  rw [FiltersMean, hrun] at h
  obtain ⟨hwf, hmean⟩ := h
  refine ⟨hwf, reversible_of_accepts hwf hrun fun sk => ?_⟩
  have hroom : (HashMap.empty : HistMap).entries.length < 10240 := Nat.zero_lt_succ _
  exact (tcpRcv_ne_iff (Or.inl hroom)).symm.trans (hmean sk HashMap.empty (Or.inl hroom))

/-- The options mean what was typed in two cases: the program ends over one of
them, or every argument denotes something and the addresses that count read the
same backwards and are not 0. -/
theorem filters_mean_iff (given : List Given) :
    FiltersMean given ↔ (∃ g ∈ given, g.Rejected) ∨
      ((∀ g ∈ given, g.WellFormed) ∧ ReversibleAddrs given) := by
  cases hrun : exec parseArg Env.init given with
  | none =>
      obtain ⟨g, hg, hr⟩ := (exec_parseArg_eq_none_iff Env.init given).mp hrun
      rw [FiltersMean, hrun]
      exact iff_of_true ⟨g, hg, Given.not_wellFormed_of_rejected hr⟩ (Or.inl ⟨g, hg, hr⟩)
  | some env =>
      have hno : ¬ ∃ g ∈ given, g.Rejected := by
        rw [← exec_parseArg_eq_none_iff Env.init given, hrun]
        exact Option.some_ne_none _
      rw [or_iff_right hno]
      constructor
      · intro hmean
        exact reversible_of_filtersMean hrun hmean
      · rintro ⟨hwf, hrev⟩
        rw [FiltersMean, hrun]
        refine ⟨hwf, fun sk hists hroom => ?_⟩
        exact (tcpRcv_ne_iff hroom).trans (accepts_of_reversible hwf hrun hrev sk)

end Meaning

/-- `-a 10.0.0.1` filters for 1.0.0.10. -/
theorem filters_reversed : ¬ ∀ (inst : HashOrder UInt64) (given : List Given),
    @FiltersMean inst given := by
  intro hall
  have hsome : (exec parseArg Env.init
      [⟨.laddr, cstr ['1', '0', '.', '0', '.', '0', '.', '1'], 0⟩]).isSome := by
    decide +kernel
  obtain ⟨env, hrun⟩ := Option.isSome_iff_exists.mp hsome
  have hrev := (@reversible_of_filtersMean ⟨fun _ => 0⟩ _ env hrun (hall _ _)).2
  have haddr := hrev .laddr _ (le32 10 0 0 1) (Or.inl rfl) rfl (by decide +kernel)
  exact absurd haddr.1 (by decide +kernel)

end NetProbes.TcpRtt
