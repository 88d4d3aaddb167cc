import Opticon.Lib.Calendar
import Opticon.Lib.Outcome
import Opticon.Meter.Data

/-! The index of a day's database file (`db_local.c`). -/

namespace Opticon

/-- Convert epoch time to a GMT date stamp integer. -/
def time2date (t : Nat) : Nat :=
  let tmin := Calendar.ofDays (t / 86400)
  10000 * tmin.year + 100 * tmin.month + tmin.day

/-- The word at a position of an index file; reading at the end of the file gives 0. -/
def localdbRead64 (fix : List Nat) (pos : Nat) : Nat := fix.getD pos 0

def sub64 (a b : Nat) : Nat := (a + 2 ^ 64 - b) % 2 ^ 64

/-- The scan from the time `tsatpos` of an entry on; `rest` is the file behind it. -/
def scanForward (ts : Nat) (tsatpos : Nat) (lastmatch : Option Nat) :
    List Nat → Except Fault (Option Nat)
  | tmp :: newts :: rest =>
    if tsatpos ≤ ts then
      if newts ≠ 0 then scanForward ts newts (some tmp) rest
      else if tsatpos = ts then .ok (some tmp)
      else (lastmatch.elim (.error .uninitialised) fun m => .ok (some m))
    else (lastmatch.elim (.error .uninitialised) fun m => .ok (some m))
  | rest =>
    if tsatpos = ts then .ok (some (rest.headD 0))
    else (lastmatch.elim (.error .uninitialised) fun m => .ok (some m))

/-- The scan back from entry `p`, which is later than `ts`. -/
def scanBack (fix : List Nat) (ts : Nat) : Nat → Nat
  | 0 => localdbRead64 fix 1
  | p + 1 =>
    if ts < localdbRead64 fix (2 * p) then scanBack fix ts p else localdbRead64 fix (2 * p + 1)

/-- Get the offset for the closest matching record to a given timestamp out of an
indexfile. `LOCALDB_OFFS_INVALID` is `none`. -/
def localdbFindIndex (fix : List Nat) (ts : Nat) : Except Fault (Option Nat) :=
  let first_when := localdbRead64 fix 0
  -- the seek to the last entry fails
  if fix.length < 2 then .ok none
  else
    let count := (fix.length - 2) / 2 + 1
    if count < 2 then .ok (some 0)
    else
      let last_when := localdbRead64 fix (fix.length - 2)
      if ts < first_when then .ok none
      else if last_when < ts ∧ 90 < ts - last_when then .ok none
      else
        let ts := if last_when < ts then last_when else ts
        let range := sub64 last_when first_when
        let diff := sub64 ts first_when
        if range = 0 then .error .divisionByZero
        else
          let pos := (count * diff % 2 ^ 64) / range
          let pos := if pos ≠ 0 then pos - 1 else pos
          let tsatpos := localdbRead64 fix (2 * pos)
          if tsatpos ≤ ts then scanForward ts tsatpos none (fix.drop (2 * pos + 1))
          else .ok (some (scanBack fix ts pos))

end Opticon
