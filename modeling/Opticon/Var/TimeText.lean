import Opticon.Lib.Calendar
import Opticon.Var.Parse

/-! The texts of times (`util.c`), which times are stored as in a var. -/

namespace Opticon

/-- The time fields as `struct tm` has them: years from 1900 on, months from 0 on. -/
structure Tm where
  tm_year : ℤ
  tm_mon : ℤ
  tm_mday : ℤ
  tm_hour : ℤ
  tm_min : ℤ
  tm_sec : ℤ
  deriving DecidableEq

/-- `gmtime_r`. -/
def gmtime (ti : Nat) : Tm :=
  let date := Calendar.ofDays (ti / 86400)
  ⟨date.year - 1900, date.month - 1, date.day, ti % 86400 / 3600, ti % 3600 / 60, ti % 60⟩

/-- `timegm`, from 1970 on: a month beyond the year counts on in the years behind it, and the
other fields count as far as they go. -/
def timegm (tm : Tm) : ℤ :=
  let year := tm.tm_year + 1900 + tm.tm_mon / 12
  let first : Calendar.Date := ⟨year.toNat, (tm.tm_mon % 12 + 1).toNat, 1⟩
  (Calendar.toDays first + (tm.tm_mday - 1)) * 86400 + tm.tm_hour * 3600 + tm.tm_min * 60 +
    tm.tm_sec

/-- `%i` -/
def printInt (z : ℤ) : List UInt8 :=
  if z < 0 then 45 :: Decimal.write z.natAbs else Decimal.write z.natAbs

/-- `%02i` -/
def printInt2 (z : ℤ) : List UInt8 :=
  if z < 0 then 45 :: Decimal.pad 1 (Decimal.write z.natAbs)
  else Decimal.pad 2 (Decimal.write z.natAbs)

def tm2str (tm : Tm) (zulu : Bool) : List UInt8 :=
  printInt (tm.tm_year + 1900) ++ [45] ++ printInt2 (tm.tm_mon + 1) ++ [45] ++
    printInt2 tm.tm_mday ++ [84] ++ printInt2 tm.tm_hour ++ [58] ++ printInt2 tm.tm_min ++
    [58] ++ printInt2 tm.tm_sec ++ if zulu then [90] else []

def time2utcstr (ti : Nat) : List UInt8 := tm2str (gmtime ti) true

/-- `atoi`: white space, a sign, digits. -/
def atoi (str : List UInt8) : ℤ :=
  match str.dropWhile isspace with
  | 45 :: cs => -Decimal.read (cs.takeWhile isdigit)
  | 43 :: cs => Decimal.read (cs.takeWhile isdigit)
  | cs => Decimal.read (cs.takeWhile isdigit)

/-- The fields stand at fixed places. Those of a text that is too short are not written. -/
def parsetime (str : List UInt8) (into : Tm) : Tm :=
  if str.length < 18 then into
  else
    { tm_year := atoi str - 1900
      tm_mon := atoi (str.drop 5) - 1
      tm_mday := atoi (str.drop 8)
      tm_hour := atoi (str.drop 11)
      tm_min := atoi (str.drop 14)
      tm_sec := atoi (str.drop 17) }

/-- `tm` is what the stack holds. -/
def utcstr2time (tm : Tm) (tstr : List UInt8) : ℤ := timegm (parsetime tstr tm)

/-! ## A time is read from its text -/

theorem atoi_digits {ds rest : List UInt8} (hne : ds ≠ []) (hds : ∀ c ∈ ds, isdigit c = true)
    (hrest : ∀ c ∈ rest.head?, isdigit c = false) : atoi (ds ++ rest) = Decimal.read ds := by
  obtain ⟨d, ds, rfl⟩ := List.exists_cons_of_ne_nil hne
  have hd : 48 ≤ d ∧ d ≤ 57 := by simpa [isdigit] using hds d List.mem_cons_self
  have hspace : isspace d = false := by
    simp only [isspace, decide_eq_false_iff_not]
    rintro (rfl | ⟨-, h⟩)
    · exact absurd hd.1 (by decide)
    · exact absurd (UInt8.le_trans hd.1 h) (by decide)
  have htake : (d :: ds ++ rest).takeWhile isdigit = d :: ds := by
    rw [List.takeWhile_append_of_pos hds]
    cases rest with
    | nil => simp
    | cons c rest => rw [List.takeWhile_cons_of_neg (by simp [hrest c rfl]), List.append_nil]
  rw [atoi, List.cons_append, List.dropWhile_cons_of_neg (by simp [hspace])]
  split
  · rename_i heq
    cases heq
    exact absurd hd.1 (by decide)
  · rename_i heq
    cases heq
    exact absurd hd.1 (by decide)
  · rw [← List.cons_append, htake]

theorem isdigit_of_mem {c : UInt8} (h : c ∈ asc "0123456789") : isdigit c = true := by
  revert c
  decide +kernel

/-- A field of two digits. -/
theorem printInt2_nat {n : Nat} (h : n < 100) :
    (printInt2 n).length = 2 ∧ (∀ c ∈ printInt2 n, isdigit c = true) ∧
      Decimal.read (printInt2 n) = n := by
  have hprint : printInt2 n = Decimal.pad 2 (Decimal.write n) := by
    rw [printInt2, if_neg (by omega), Int.natAbs_natCast]
  rw [hprint]
  refine ⟨Decimal.length_pad (Decimal.length_write_le (by decide) h), fun c hc => ?_, ?_⟩
  · exact isdigit_of_mem (Decimal.mem_pad (fun _ => Decimal.mem_write) hc)
  · rw [Decimal.read_pad, Decimal.read_write]

theorem drop_field {a r : List UInt8} {c : UInt8} {n : Nat} (h : a.length = n) :
    (a ++ c :: r).drop (n + 1) = r := by
  rw [← h, List.drop_append, List.drop_of_length_le (Nat.le_succ _), Nat.add_sub_cancel_left]
  rfl

/-- The fields of a text with a year of four digits. -/
theorem parsetime_tm2str {tm : Tm} {y mo d h mi s : Nat} (hlow : 1000 ≤ y) (hhigh : y ≤ 9999)
    (hmo : mo < 100) (hd : d < 100) (hh : h < 100) (hmi : mi < 100) (hs : s < 100) :
    (tm2str ⟨y - 1900, mo - 1, d, h, mi, s⟩ true).length = 20 ∧
      parsetime (tm2str ⟨y - 1900, mo - 1, d, h, mi, s⟩ true) tm =
        ⟨y - 1900, mo - 1, d, h, mi, s⟩ := by
  have hyear : printInt y = Decimal.write y := by
    rw [printInt, if_neg (by omega), Int.natAbs_natCast]
  have hylen : (Decimal.write y).length = 4 := Decimal.length_write hlow (by omega)
  obtain ⟨hmolen, hmodig, hmoread⟩ := printInt2_nat hmo
  obtain ⟨hdlen, hddig, hdread⟩ := printInt2_nat hd
  obtain ⟨hhlen, hhdig, hhread⟩ := printInt2_nat hh
  obtain ⟨hmilen, hmidig, hmiread⟩ := printInt2_nat hmi
  obtain ⟨hslen, hsdig, hsread⟩ := printInt2_nat hs
  have htext : tm2str ⟨y - 1900, mo - 1, d, h, mi, s⟩ true =
      Decimal.write y ++ 45 :: (printInt2 mo ++ 45 :: (printInt2 d ++ 84 :: (printInt2 h ++
        58 :: (printInt2 mi ++ 58 :: (printInt2 s ++ [90]))))) := by
    simp only [tm2str, sub_add_cancel, hyear, if_true, List.append_assoc, List.cons_append,
      List.nil_append]
  have hlen : (tm2str ⟨y - 1900, mo - 1, d, h, mi, s⟩ true).length = 20 := by
    rw [htext]
    simp only [List.length_append, List.length_cons, List.length_nil, hylen, hmolen, hdlen,
      hhlen, hmilen, hslen]
  refine ⟨hlen, ?_⟩
  have hfield {n : Nat} {c : UInt8} {rest : List UInt8} (hlen : (printInt2 n).length = 2)
      (hdig : ∀ c ∈ printInt2 n, isdigit c = true) (hread : Decimal.read (printInt2 n) = n)
      (hc : isdigit c = false) : atoi (printInt2 n ++ c :: rest) = n := by
    rw [atoi_digits (List.ne_nil_of_length_pos (by omega)) hdig (by simpa using hc), hread]
  have hdrop (i j : Nat) (l : List UInt8) : l.drop (i + j) = (l.drop i).drop j := by
    rw [List.drop_drop]
  have hyread : atoi (tm2str ⟨y - 1900, mo - 1, d, h, mi, s⟩ true) = y := by
    rw [htext, atoi_digits (List.ne_nil_of_length_pos (by omega))
      (fun c hc => isdigit_of_mem (Decimal.mem_write hc)) (by rintro c ⟨⟩; rfl),
      Decimal.read_write]
  have h5 : (tm2str ⟨y - 1900, mo - 1, d, h, mi, s⟩ true).drop 5 = printInt2 mo ++
      45 :: (printInt2 d ++ 84 :: (printInt2 h ++ 58 :: (printInt2 mi ++ 58 ::
        (printInt2 s ++ [90])))) := by
    rw [htext, drop_field hylen]
  have h8 := (hdrop 5 3 _).trans ((congrArg (List.drop 3) h5).trans (drop_field hmolen))
  have h11 := (hdrop 8 3 _).trans ((congrArg (List.drop 3) h8).trans (drop_field hdlen))
  have h14 := (hdrop 11 3 _).trans ((congrArg (List.drop 3) h11).trans (drop_field hhlen))
  have h17 := (hdrop 14 3 _).trans ((congrArg (List.drop 3) h14).trans (drop_field hmilen))
  rw [parsetime, if_neg (by omega), hyread, h5, h8, h11, h14, h17,
    hfield hmolen hmodig hmoread (by decide), hfield hdlen hddig hdread (by decide),
    hfield hhlen hhdig hhread (by decide), hfield hmilen hmidig hmiread (by decide),
    hfield hslen hsdig hsread (by decide)]

theorem timegm_gmtime (ti : Nat) : timegm (gmtime ti) = ti := by
  obtain ⟨hyear, hlow, hhigh, hday, -⟩ := Calendar.ofDays_bounds (ti / 86400)
  have hdays := (Calendar.ofDays_spec (ti / 86400)).1
  rw [gmtime, timegm]
  generalize Calendar.ofDays (ti / 86400) = date at *
  obtain ⟨year, month, day⟩ := date
  simp only at hyear hlow hhigh hday ⊢
  have hyears : (year : ℤ) - 1900 + 1900 + (month - 1) / 12 = year := by
    rw [sub_add_cancel, Int.ediv_eq_zero_of_lt (by omega) (by omega), add_zero]
  have hmonths : ((month : ℤ) - 1) % 12 + 1 = month := by
    rw [Int.emod_eq_of_lt (by omega) (by omega), sub_add_cancel]
  have hfirst : Calendar.toDays ⟨year, month, 1⟩ + (day - 1) = ti / 86400 := by
    rw [← hdays]
    simp only [Calendar.toDays]
    omega
  rw [hyears, hmonths, Int.toNat_natCast, Int.toNat_natCast]
  omega

theorem time2utcstr_nul (ti : Nat) : 0 ∉ time2utcstr ti := by
  have hdigits {cs : List UInt8} (h : ∀ c ∈ cs, c ∈ asc "0123456789") : 0 ∉ cs := fun hmem =>
    absurd (h 0 hmem) (by decide)
  have hprint (z : ℤ) : 0 ∉ printInt z := by
    rw [printInt]
    split
    · exact List.not_mem_cons_of_ne_of_not_mem (by decide) (hdigits fun _ => Decimal.mem_write)
    · exact hdigits fun _ => Decimal.mem_write
  have hprint2 (z : ℤ) : 0 ∉ printInt2 z := by
    rw [printInt2]
    split
    · exact List.not_mem_cons_of_ne_of_not_mem (by decide)
        (hdigits fun _ => Decimal.mem_pad fun _ => Decimal.mem_write)
    · exact hdigits fun _ => Decimal.mem_pad fun _ => Decimal.mem_write
  simp [time2utcstr, tm2str, hprint, hprint2]

/-- A time up to the end of the year 9999 is read back from its text, which is 20 characters
long. -/
theorem utcstr2time_time2utcstr (tm : Tm) {ti : Nat}
    (h : (Calendar.ofDays (ti / 86400)).year ≤ 9999) :
    (time2utcstr ti).length = 20 ∧ utcstr2time tm (time2utcstr ti) = ti := by
  obtain ⟨hyear, hlow, hhigh, hday, hday'⟩ := Calendar.ofDays_bounds (ti / 86400)
  have hparse := @parsetime_tm2str tm (Calendar.ofDays (ti / 86400)).year
    (Calendar.ofDays (ti / 86400)).month (Calendar.ofDays (ti / 86400)).day
    (ti % 86400 / 3600) (ti % 3600 / 60) (ti % 60) (by omega) h (by omega) (by omega) (by omega)
    (by omega) (by omega)
  have hfields : gmtime ti = ⟨(Calendar.ofDays (ti / 86400)).year - 1900,
      (Calendar.ofDays (ti / 86400)).month - 1, (Calendar.ofDays (ti / 86400)).day,
      (ti % 86400 / 3600 : Nat), (ti % 3600 / 60 : Nat), (ti % 60 : Nat)⟩ := by
    rw [gmtime]
    push_cast
    rfl
  rw [time2utcstr, utcstr2time, hfields]
  refine ⟨hparse.1, ?_⟩
  rw [hparse.2, ← hfields, timegm_gmtime]

end Opticon
