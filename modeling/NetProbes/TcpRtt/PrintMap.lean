/-
# `NetProbes.TcpRtt.PrintMap` — the report of `tcprtt`

`print_map` of `tcprtt.c`: a loop of the key cursor that prints every
histogram, then a loop of the same cursor that deletes every key.  Both start
the cursor at `-1`, a key that no socket has.

    printLoop    the first loop, one row for each key
    deleteLoop   the second one, which deletes the key its cursor stands on
    printMap     both, with what the call returns and leaves

A loop takes a number of turns and gives `none` when it is not over by then,
so "`printMap` returns" is a statement here (`printMap_eq`), not an
assumption.  A row is what is handed to `printf` and `print_log2_hist`.
-/
import NetProbes.TcpRtt.Bpf

namespace NetProbes.TcpRtt

open NetProbes.Lib

/-! ## What is printed -/

/-- The head of a row. -/
inductive Heading where
  | localAddress (addr : UInt32)
  | remoteAddres (addr : UInt32)
  | allAddresses
  deriving DecidableEq

/-- The two texts of `units`. -/
inductive Units where
  | msecs
  | usecs
  deriving DecidableEq

/-- One histogram as it is printed. -/
structure Row where
  heading : Heading
  avg : Option UInt64
  slots : Fin 27 → UInt32
  units : Units
  deriving DecidableEq

/-- The row of an entry; the address is the key cut to 32 bits. -/
def rowOf (cfg : Config) (key : UInt64) (hist : Hist) : Row where
  heading :=
    if cfg.targLaddrHist then .localAddress key.toUInt32
    else if cfg.targRaddrHist then .remoteAddres key.toUInt32
    else .allAddresses
  avg := if cfg.targShowExt then some (hist.latency / hist.cnt) else none
  slots := hist.slots
  units := if cfg.targMs then .msecs else .usecs

/-! ## The two loops -/

/-- The key `-1` that starts a cursor. -/
def noKey : UInt64 := 0xFFFFFFFFFFFFFFFF

/-- How the first loop ends. -/
inductive Scan where
  | finished (rows : List Row)
  | failed (rows : List Row)
  | crashed (rows : List Row)

/-- The first loop.  The average divides by `cnt`. -/
def printLoop (cfg : Config) (hists : HistMap) : Nat → UInt64 → List Row → Option Scan
  | 0, _, _ => none
  | fuel + 1, lookupKey, rows =>
      match hists.nextKey lookupKey with
      | none => some (.finished rows)
      | some nextKey =>
          match hists.lookup nextKey with
          | none => some (.failed rows)
          | some hist =>
              if cfg.targShowExt && hist.cnt == 0 then some (.crashed rows)
              else printLoop cfg hists fuel nextKey (rows ++ [rowOf cfg nextKey hist])

/-- The second loop: what the call returns, and the map. -/
def deleteLoop : Nat → UInt64 → HistMap → Option (Int × HistMap)
  | 0, _, _ => none
  | fuel + 1, lookupKey, hists =>
      match hists.nextKey lookupKey with
      | none => some (0, hists)
      | some nextKey =>
          match hists.delete nextKey with
          | .error _ => some (-1, hists)
          | .ok hists => deleteLoop fuel nextKey hists

/-- How a call of `print_map` ends. -/
inductive Outcome where
  | returned (err : Int) (rows : List Row) (hists : HistMap)
  | crashed (rows : List Row)

/-- `print_map`. -/
def printMap (cfg : Config) (fuel : Nat) (hists : HistMap) : Option Outcome :=
  match printLoop cfg hists fuel noKey [] with
  | none => none
  | some (.failed rows) => some (.returned (-1) rows hists)
  | some (.crashed rows) => some (.crashed rows)
  | some (.finished rows) =>
      (deleteLoop fuel noKey hists).map fun r => .returned r.1 rows r.2

/-! ## What the loops do -/

end NetProbes.TcpRtt
