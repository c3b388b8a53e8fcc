/-
# `NetProbes.TcpConnect.Options` — from the options of `tcpconnect` to its filters

`parse_arg` puts the options into `env`, `main` puts `env` into the constants
of the probes, and `filter_port` compares them with the port of a socket:

    -P list   get_ints, each value in 1..65535, up to 64 of them
    main      htons of each value, as an `int`
    probe     the port in network order, promoted to `int`

A value in 1..65535 survives the way (`htons_eq_iff`), so a port is left out
exactly where it is none of the last list, and no port is where there was no
list (`ports_filtered`).
-/
import NetProbes.TcpConnect.Bpf
import NetProbes.TcpConnect.GetInts
import NetProbes.Lib.Run

namespace NetProbes.TcpConnect

open NetProbes.Lib

/-! ## `parse_arg` -/

/-- The options, by their long names. -/
inductive Key where
  | help
  | verbose
  | timestamp
  | count
  | printUid
  | pid
  | uid
  | port
  | cgroupmap
  | mntnsmap
  deriving DecidableEq

/-- `struct env`. -/
structure Env where
  verbose : Bool
  count : Bool
  printTimestamp : Bool
  printUid : Bool
  pid : Int32
  uid : UInt32
  nports : Nat
  ports : Ints 64
  nports_le : nports ≤ 64

theorem noPorts_le : 0 ≤ 64 := Nat.zero_le 64

/-- The static `env`. -/
def Env.init : Env where
  verbose := false
  count := false
  printTimestamp := false
  printUid := false
  pid := 0
  uid := 0xFFFFFFFF
  nports := 0
  ports := Ints.zero 64
  nports_le := noPorts_le

/-- One call of `parse_arg`: the option and its argument. -/
structure Given where
  key : Key
  arg : CStr

/-- `get_int`; `none` where it returns -1. -/
def getInt (arg : CStr) (min max : Int32) : Option Int32 :=
  let (val, rest) := strtol arg.1
  if strtolErange arg.1 then none
  else if rest = arg.1 ∨ val < min.toInt ∨ val > max.toInt then none
  else some (Int32.ofInt val)

/-- `get_uint`; the result of `strtoul`, which stops where `strtol` does, is put
into a `long`. -/
def getUint (arg : CStr) (min max : UInt32) : Option UInt32 :=
  let (n, errno) := strtoul arg.1
  let val := Int.bmod n 18446744073709551616
  if errno then none
  else if (strtol arg.1).2 = arg.1 ∨ val < min.toNat ∨ val > max.toNat then none
  else some (toUint32 val)

/-- `parse_arg`; `none` where it ends the program. -/
def parseArg (env : Env) (g : Given) : Option Env :=
  match g.key with
  | .help => none
  | .verbose => some { env with verbose := true }
  | .count => some { env with count := true }
  | .timestamp => some { env with printTimestamp := true }
  | .printUid => some { env with printUid := true }
  | .pid => (getInt g.arg 1 2147483647).map fun v => { env with pid := v }
  | .uid => (getUint g.arg 0 0xFFFFFFFE).map fun v => { env with uid := v }
  | .port =>
      match h : getInts g.arg env.ports 1 65535 with
      | none => none
      | some r =>
          if r.ret ≠ 0 then none
          else some { env with nports := r.size, ports := r.array, nports_le := getInts_size_le h }
  | .cgroupmap => some env
  | .mntnsmap => some env

/-! ## The constants -/

/-- `htons` of an `int`, which is cut to 16 bits first. -/
def htons (v : Int32) : UInt16 := bswap16 v.toUInt32.toUInt16

/-- The constants `main` sets from `env`.  What it leaves alone has the default
of `env`. -/
def Env.rodata (env : Env) : Config where
  filterPorts := ⟨(env.ports.1.take env.nports).map (fun v => ((htons v).toNat : Int))
    ++ List.replicate (64 - env.nports) 0, by
      have hlen := env.ports.2
      have hle := env.nports_le
      simp only [List.length_append, List.length_map, List.length_take, List.length_replicate]
      omega⟩
  filterPortsLen := env.nports
  len_le := env.nports_le
  filterUid := env.uid
  filterPid := env.pid.toUInt32
  doCount := env.count

/-! ## The filter -/

theorem filterPortLoop_iff (cfg : Config) (port : UInt16) (n i : Nat) (h : i + n ≤ 64) :
    filterPortLoop cfg port n i = true ↔
      ∀ v ∈ (cfg.filterPorts.1.drop i).take n, (port.toNat : Int) ≠ v := by
  induction n generalizing i with
  | zero => simp [filterPortLoop]
  | succ n ih =>
      have hi : i < cfg.filterPorts.1.length := by rw [cfg.filterPorts.2]; omega
      rw [filterPortLoop, List.drop_eq_getElem_cons hi, List.take_succ_cons,
        List.getD_eq_getElem _ _ hi, List.forall_mem_cons]
      by_cases hv : (port.toNat : Int) = cfg.filterPorts.1[i]
      · simp [hv]
      · rw [if_neg hv, ih (i + 1) (by omega)]
        exact (and_iff_right hv).symm

/-- A list leaves out every port that is not in it, no list none. -/
theorem filterPort_iff (cfg : Config) (port : UInt16) :
    filterPort cfg port = true ↔ cfg.filterPortsLen ≠ 0 ∧
      ∀ v ∈ cfg.filterPorts.1.take cfg.filterPortsLen, (port.toNat : Int) ≠ v := by
  have hle := cfg.len_le
  rw [filterPort]
  split
  · rename_i hzero
    exact iff_of_false Bool.false_ne_true fun h => h.1 hzero
  · rename_i hne
    rw [filterPortLoop_iff cfg port _ 0 (by omega), List.drop_zero]
    exact (and_iff_right hne).symm

/-- A port in range is compared as it was given. -/
theorem htons_eq_iff {v : Int32} (h₁ : 1 ≤ v.toInt) (h₂ : v.toInt ≤ 65535) (d : UInt16) :
    ((bswap16 d).toNat : Int) = ((htons v).toNat : Int) ↔ v.toInt = d.toNat := by
  have hv : 0 ≤ v := by
    rw [Int32.le_iff_toInt_le, Int32.toInt_zero]
    omega
  have hnat : v.toUInt32.toUInt16.toNat = v.toInt.toNat := by
    rw [UInt32.toNat_toUInt16, Int32.toNat_toUInt32_of_le hv]
    show v.toInt.toNat % 65536 = v.toInt.toNat
    omega
  have hswap : bswap16 d = htons v ↔ d = v.toUInt32.toUInt16 := by
    constructor
    · intro h
      have hd := congrArg bswap16 h
      rw [htons, bswap16_bswap16, bswap16_bswap16] at hd
      exact hd
    · intro h
      rw [htons, h]
  rw [Int.natCast_inj, UInt16.toNat_inj, hswap, ← UInt16.toNat_inj, hnat]
  omega

theorem filterPort_rodata (env : Env) (port : UInt16) :
    filterPort env.rodata port = true ↔ env.nports ≠ 0 ∧
      ∀ v ∈ env.ports.1.take env.nports, (port.toNat : Int) ≠ (htons v).toNat := by
  have htake : env.rodata.filterPorts.1.take env.nports
      = (env.ports.1.take env.nports).map fun v => ((htons v).toNat : Int) := by
    have hlen : ((env.ports.1.take env.nports).map fun v => ((htons v).toNat : Int)).length
        = env.nports := by
      have hports := env.ports.2
      have hle := env.nports_le
      rw [List.length_map, List.length_take]
      omega
    exact List.take_left' hlen
  rw [filterPort_iff, show env.rodata.filterPortsLen = env.nports from rfl, htake, List.forall_mem_map]

/-! ## The last list -/

/-- The last `-P`. -/
def lastPort (given : List Given) : Option Given := given.reverse.find? fun g => g.key = .port

/-- `env` has the ports of the list, or none where there was no list. -/
def HasPorts (env : Env) : Option Given → Prop
  | none => env.nports = 0
  | some g => ∃ (before : Ints 64) (r : IntsResult 64), getInts g.arg before 1 65535 = some r ∧
      r.ret = 0 ∧ env.nports = r.size ∧ env.ports = r.array

/-- A `-P` replaces the ports and no other option touches them. -/
theorem hasPorts_step {env env' : Env} {o : Option Given} {g : Given} (h : HasPorts env o)
    (hstep : parseArg env g = some env') :
    HasPorts env' (if g.key = .port then some g else o) := by
  obtain ⟨key, arg⟩ := g
  have hsame : ∀ env'' : Env, env''.nports = env.nports → env''.ports = env.ports →
      HasPorts env'' o := by
    intro env'' hn hp
    cases o with
    | none => exact hn.trans h
    | some g =>
        obtain ⟨before, r, hr, hret, hsize, harray⟩ := h
        exact ⟨before, r, hr, hret, hn.trans hsize, hp.trans harray⟩
  cases key with
  | help => cases hstep
  | pid =>
      obtain ⟨v, -, rfl⟩ := Option.map_eq_some_iff.mp hstep
      exact hsame _ rfl rfl
  | uid =>
      obtain ⟨v, -, rfl⟩ := Option.map_eq_some_iff.mp hstep
      exact hsame _ rfl rfl
  | port =>
      simp only [parseArg] at hstep
      split at hstep
      · cases hstep
      · rename_i r hr
        split at hstep
        · cases hstep
        · rename_i hret
          cases hstep
          exact ⟨env.ports, r, hr, not_not.mp hret, rfl, rfl⟩
  | _ =>
      cases hstep
      exact hsame _ rfl rfl

theorem hasPorts_run {given : List Given} {env : Env}
    (hrun : exec parseArg Env.init given = some env) : HasPorts env (lastPort given) := by
  induction given using List.reverseRecOn generalizing env with
  | nil =>
      cases hrun
      rfl
  | append_singleton given g ih =>
      obtain ⟨env₁, h₁, h₂⟩ := exec_append.mp hrun
      obtain ⟨env₂, hg, hnil⟩ := exec_cons.mp h₂
      cases hnil
      have hlast : lastPort (given ++ [g]) = if g.key = .port then some g else lastPort given := by
        by_cases hk : g.key = .port
        · simp [lastPort, hk]
        · simp [lastPort, hk]
      rw [hlast]
      exact hasPorts_step (ih h₁) hg

/-- A list of ports is read without an access outside the string or the array;
where it is accepted there are 1 to 64 values, all of them ports. -/
theorem getInts_ports (arg : CStr) (ret : Ints 64) :
    ∃ r, getInts arg ret 1 65535 = some r ∧ (r.ret = 0 → 1 ≤ r.size ∧ r.size ≤ 64 ∧
      r.values.length = r.size ∧ ∀ p ∈ r.values, 1 ≤ p ∧ p ≤ 65535) := by
  obtain ⟨r, hr, hacc, href⟩ := getInts_spec arg ret 1 65535
  refine ⟨r, hr, fun hret => ?_⟩
  have hun : Unrefused 1 65535 (pieces 64 arg.1) := by
    by_contra hno
    rw [(href hno).1] at hret
    exact absurd hret (by decide)
  obtain ⟨-, hsize, hvals⟩ := hacc hun
  rw [hsize, hvals, List.length_map]
  refine ⟨List.length_pos_iff.mpr (pieces_ne_nil 63 arg.1), pieces_length_le 64 arg.1, rfl, ?_⟩
  intro v hv
  obtain ⟨p, hp, rfl⟩ := List.mem_map.mp hv
  exact hun.1 p hp

/-- Every list is read inside its string and into the array, and an accepted one
gives 1 to 64 ports.  After any options the probes leave out exactly the ports
that are not in the last list, and none where there was no list. -/
theorem ports_filtered :
    (∀ (arg : CStr) (ret : Ints 64), ∃ r, getInts arg ret 1 65535 = some r ∧
      (r.ret = 0 → 1 ≤ r.size ∧ r.size ≤ 64 ∧ r.values.length = r.size ∧
        ∀ p ∈ r.values, 1 ≤ p ∧ p ≤ 65535)) ∧
    ∀ (given : List Given) (env : Env), exec parseArg Env.init given = some env → ∀ d : UInt16,
      match lastPort given with
      | none => filterPort env.rodata (bswap16 d) = false
      | some g => ∃ (ret : Ints 64) (r : IntsResult 64), getInts g.arg ret 1 65535 = some r ∧
          r.ret = 0 ∧ (filterPort env.rodata (bswap16 d) = true ↔ ∀ p ∈ r.values, p ≠ d.toNat) := by
  refine ⟨getInts_ports, ?_⟩
  intro given env hrun d
  have hports := hasPorts_run hrun
  cases hlast : lastPort given with
  | none =>
      rw [hlast] at hports
      have hzero : env.nports = 0 := hports
      refine eq_false_of_ne_true fun h => ?_
      exact ((filterPort_rodata env (bswap16 d)).mp h).1 hzero
  | some g =>
      rw [hlast] at hports
      obtain ⟨ret, r, hr, hret, hsize, harray⟩ := hports
      refine ⟨ret, r, hr, hret, ?_⟩
      obtain ⟨r', hr', hall⟩ := getInts_ports g.arg ret
      obtain rfl : r' = r := Option.some.inj (hr'.symm.trans hr)
      obtain ⟨hpos, -, -, hrange⟩ := hall hret
      have hne : r'.size ≠ 0 := by omega
      rw [filterPort_rodata, hsize, harray, and_iff_right hne, IntsResult.values,
        List.forall_mem_map]
      refine forall₂_congr fun v hv => not_congr ?_
      obtain ⟨hlow, hhigh⟩ := hrange v.toInt (List.mem_map_of_mem hv)
      exact htons_eq_iff hlow hhigh d

/-- `443`. -/
def sampleList : CStr := ⟨cstr ['4', '4', '3'], by decide +kernel⟩

/-- `-P 80,81 -P 443`. -/
def samplePorts : List Given :=
  [⟨.port, ⟨cstr ['8', '0', ',', '8', '1'], by decide +kernel⟩⟩, ⟨.port, sampleList⟩]

theorem ports_filtered_samplePorts :
    ∃ env, exec parseArg Env.init samplePorts = some env ∧
      ∃ (ret : Ints 64) (r : IntsResult 64), getInts sampleList ret 1 65535 = some r ∧ r.ret = 0 ∧
        (filterPort env.rodata (bswap16 443) = true ↔ ∀ p ∈ r.values, p ≠ 443) := by
  have hsome : (exec parseArg Env.init samplePorts).isSome := by decide +kernel
  obtain ⟨env, hrun⟩ := Option.isSome_iff_exists.mp hsome
  have hlast : lastPort samplePorts = some ⟨.port, sampleList⟩ := rfl
  have h := ports_filtered.2 samplePorts env hrun 443
  rw [hlast] at h
  exact ⟨env, hrun, h⟩

end NetProbes.TcpConnect
