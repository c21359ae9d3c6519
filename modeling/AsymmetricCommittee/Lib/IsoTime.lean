import Mathlib.Data.Nat.Digits.Lemmas
import Mathlib.Data.List.Infix
import Mathlib.Data.Int.Basic

/-! ISO 8601 texts of dates and UTC instants: a date is counted in days and an instant in microseconds
    since 1970-01-01. -/

namespace IsoTime

/-- A date of the proleptic Gregorian calendar. -/
@[ext] structure Civil where
  year : Int
  month : Int
  day : Int

/-- The date a number of days after 1970-01-01, by 400-year eras that begin on the first of March. -/
def civil (days : Int) : Civil :=
  let z := days + 719468
  let doe := z % 146097
  let yoe := (doe - doe / 1460 + doe / 36524 - doe / 146096) / 365
  let doy := doe - (365 * yoe + yoe / 4 - yoe / 100)
  let mp := (5 * doy + 2) / 153
  { year := yoe + z / 146097 * 400 + if mp < 10 then 0 else 1
    month := if mp < 10 then mp + 3 else mp - 9
    day := doy - (153 * mp + 2) / 5 + 1 }

/-- The decimal digits, with leading zeros up to the width. -/
def pad (width n : Nat) : List Char :=
  (Nat.digitsAppend 10 width n).reverse.map Nat.digitChar

def padYear (y : Int) : List Char := if 0 ≤ y then pad 4 y.toNat else '-' :: pad 4 (-y).toNat

/-- `date.isoformat()`. -/
def isoDate (days : Int) : String :=
  let c := civil days
  String.ofList (padYear c.year ++ '-' :: (pad 2 c.month.toNat ++ '-' :: pad 2 c.day.toNat))

/-- `HH:MM:SS` of a second of the day. -/
def clock (second : Nat) : List Char :=
  pad 2 (second / 3600) ++ ':' :: (pad 2 (second / 60 % 60) ++ ':' :: pad 2 (second % 60))

/-- `datetime.isoformat(timespec="microseconds")` of an instant in UTC. -/
def isoUtcMicros (instant : Int) : String :=
  let t := (instant % 86400000000).toNat
  isoDate (instant / 86400000000) ++
    String.ofList ('T' :: (clock (t / 1000000) ++ '.' :: (pad 6 (t % 1000000) ++ "+00:00".toList)))

/-- A UTC offset, with its seconds and its fraction when they are not zero. -/
def utcOffset (offset : Int) : List Char :=
  let t := offset.natAbs
  let rest := if t % 60000000 = 0 then [] else
    ':' :: (pad 2 (t / 1000000 % 60) ++ if t % 1000000 = 0 then [] else '.' :: pad 6 (t % 1000000))
  (if offset < 0 then '-' else '+') :: (pad 2 (t / 3600000000) ++ ':' :: (pad 2 (t / 60000000 % 60) ++ rest))

/-- `datetime.isoformat(timespec="microseconds")` of an instant at a UTC offset. -/
def isoMicros (instant offset : Int) : String :=
  let local_ := instant + offset
  let t := (local_ % 86400000000).toNat
  isoDate (local_ / 86400000000) ++
    String.ofList ('T' :: (clock (t / 1000000) ++ '.' :: (pad 6 (t % 1000000) ++ utcOffset offset)))

/-- `datetime.isoformat()` of an instant in UTC: the fraction is left out when it is zero. -/
def isoUtc (instant : Int) : String :=
  if instant % 1000000 = 0 then
    let t := (instant % 86400000000).toNat
    isoDate (instant / 86400000000) ++ String.ofList ('T' :: (clock (t / 1000000) ++ "+00:00".toList))
  else isoUtcMicros instant

example : isoDate 19786 = "2024-03-04" := by decide
example : isoUtc 1709562600000000 = "2024-03-04T14:30:00+00:00" := by decide
example : isoUtcMicros 1709562600000000 = "2024-03-04T14:30:00.000000+00:00" := by decide

example : isoMicros 1709562600000000 (-18000000000) = "2024-03-04T09:30:00.000000-05:00" := by decide

/-! ### The days of a date -/

/-- The year of the era that the days begin, and the day within it. -/
theorem yoe_bounds {doe : Int} (h0 : 0 ≤ doe) (h1 : doe < 146097) :
    let yoe := (doe - doe / 1460 + doe / 36524 - doe / 146096) / 365
    0 ≤ yoe ∧ yoe ≤ 399 ∧ 0 ≤ doe - (365 * yoe + yoe / 4 - yoe / 100) ∧
      doe - (365 * yoe + yoe / 4 - yoe / 100) ≤ 365 := by
  intro yoe
  have hn : 0 ≤ yoe ∧ yoe ≤ 399 := by omega
  -- the centuries of the day and of the year differ at most at a boundary
  have hf : doe / 36524 = 0 ∨ doe / 36524 = 1 ∨ doe / 36524 = 2 ∨ doe / 36524 = 3 ∨ doe / 36524 = 4 := by omega
  have hd : yoe / 100 = 0 ∨ yoe / 100 = 1 ∨ yoe / 100 = 2 ∨ yoe / 100 = 3 := by omega
  refine ⟨hn.1, hn.2, ?_, ?_⟩
  · rcases hf with hf | hf | hf | hf | hf <;> rcases hd with hd | hd | hd | hd <;> omega
  · rcases hf with hf | hf | hf | hf | hf <;> rcases hd with hd | hd | hd | hd <;> omega

theorem civil_bounds (days : Int) :
    1 ≤ (civil days).month ∧ (civil days).month ≤ 12 ∧ 1 ≤ (civil days).day ∧ (civil days).day ≤ 31 := by
  have hdoy := (yoe_bounds (Int.emod_nonneg (days + 719468) (by decide : (146097 : Int) ≠ 0))
    (Int.emod_lt_of_pos (days + 719468) (by decide))).2.2
  simp only [civil]
  generalize (days + 719468) % 146097 = doe at *
  generalize doe - (365 * ((doe - doe / 1460 + doe / 36524 - doe / 146096) / 365) +
    (doe - doe / 1460 + doe / 36524 - doe / 146096) / 365 / 4 -
    (doe - doe / 1460 + doe / 36524 - doe / 146096) / 365 / 100) = doy at *
  split <;> omega

/-- The month and the day of the month determine the day of the year, and whether January has begun. -/
theorem day_of_year_inj {p q : Int} (hp : 0 ≤ p ∧ p ≤ 365) (hq : 0 ≤ q ∧ q ≤ 365)
    (hm : (if (5 * p + 2) / 153 < 10 then (5 * p + 2) / 153 + 3 else (5 * p + 2) / 153 - 9) =
      if (5 * q + 2) / 153 < 10 then (5 * q + 2) / 153 + 3 else (5 * q + 2) / 153 - 9)
    (hd : p - (153 * ((5 * p + 2) / 153) + 2) / 5 + 1 = q - (153 * ((5 * q + 2) / 153) + 2) / 5 + 1) : p = q := by
  have hmp : (5 * p + 2) / 153 = (5 * q + 2) / 153 := by
    split at hm <;> split at hm <;> omega
  rw [hmp] at hd
  omega

theorem civil_injective : Function.Injective civil := by
  intro a b h
  simp only [civil, Civil.mk.injEq] at h
  obtain ⟨hy, hm, hd⟩ := h
  have hda := yoe_bounds (Int.emod_nonneg (a + 719468) (by decide : (146097 : Int) ≠ 0))
    (Int.emod_lt_of_pos (a + 719468) (by decide))
  have hdb := yoe_bounds (Int.emod_nonneg (b + 719468) (by decide : (146097 : Int) ≠ 0))
    (Int.emod_lt_of_pos (b + 719468) (by decide))
  have hera_a := Int.mul_ediv_add_emod (a + 719468) 146097
  have hera_b := Int.mul_ediv_add_emod (b + 719468) 146097
  generalize (a + 719468) % 146097 = da at *
  generalize (b + 719468) % 146097 = db at *
  generalize (a + 719468) / 146097 = ea at *
  generalize (b + 719468) / 146097 = eb at *
  generalize hya : (da - da / 1460 + da / 36524 - da / 146096) / 365 = ya at *
  generalize hyb : (db - db / 1460 + db / 36524 - db / 146096) / 365 = yb at *
  simp only at hda hdb
  have hdoy := day_of_year_inj ⟨hda.2.2.1, hda.2.2.2⟩ ⟨hdb.2.2.1, hdb.2.2.2⟩ hm hd
  rw [hdoy] at hy
  have hyear : ya = yb ∧ ea = eb := by
    clear hera_a hera_b hm hd hdoy hya hyb
    omega
  obtain ⟨rfl, rfl⟩ := hyear
  have hday : da = db := sub_left_injective hdoy
  omega

/-! ### The characters of the texts -/

theorem pad_digit {width n : Nat} {c : Char} (hc : c ∈ pad width n) : ∃ d < 10, c = Nat.digitChar d := by
  simp only [pad, List.mem_map, List.mem_reverse] at hc
  obtain ⟨d, hd, rfl⟩ := hc
  exact ⟨d, Nat.lt_of_mem_digitsAppend (by decide) width d hd, rfl⟩

/-- The number the digits are read back as. -/
def padValue (cs : List Char) : Nat := Nat.ofDigits 10 (cs.reverse.map fun c => c.toNat - 48)

theorem padValue_pad (width n : Nat) : padValue (pad width n) = n := by
  have hvalue : ∀ d ∈ Nat.digitsAppend 10 width n, (Nat.digitChar d).toNat - 48 = d := by
    intro d hd
    rw [Nat.toNat_digitChar_of_lt_ten (Nat.lt_of_mem_digitsAppend (by decide) width d hd)]
    omega
  have hdigits : (Nat.digitsAppend 10 width n).map ((fun c => c.toNat - 48) ∘ Nat.digitChar) =
      Nat.digitsAppend 10 width n := by
    simpa [Function.comp_def] using List.map_congr_left hvalue
  rw [padValue, pad, ← List.map_reverse, List.reverse_reverse, List.map_map, hdigits, Nat.digitsAppend,
    Nat.ofDigits_append_replicate_zero, Nat.ofDigits_digits]

theorem pad_injective (width : Nat) : Function.Injective (pad width) :=
  Function.LeftInverse.injective (padValue_pad width)

theorem length_pad {width n : Nat} (h : n < 10 ^ width) : (pad width n).length = width := by
  rw [pad, List.length_map, List.length_reverse]
  exact Nat.length_digitsAppend (by decide) width h

theorem length_pad_two {n : Nat} (h : n < 100) : (pad 2 n).length = 2 := length_pad h

/-- What ISO texts are written with. -/
def IsoChar (c : Char) : Prop := (∃ d < 10, c = Nat.digitChar d) ∨ c ∈ ['-', ':', '.', '+', 'T']

theorem IsoChar.ne {c : Char} (h : IsoChar c) : c ≠ '|' ∧ c ≠ '\n' := by
  rcases h with ⟨d, hd, rfl⟩ | h
  · have hall : ∀ i < 10, Nat.digitChar i ≠ '|' ∧ Nat.digitChar i ≠ '\n' := by decide
    exact hall d hd
  · simp only [List.mem_cons, List.not_mem_nil, or_false] at h
    rcases h with rfl | rfl | rfl | rfl | rfl
    all_goals decide

theorem isoChar_pad {width n : Nat} : ∀ c ∈ pad width n, IsoChar c := fun _ hc => Or.inl (pad_digit hc)

theorem isoChar_cons {c : Char} {cs : List Char} (hc : c ∈ ['-', ':', '.', '+', 'T']) (h : ∀ c ∈ cs, IsoChar c) :
    ∀ x ∈ c :: cs, IsoChar x := by
  intro x hx
  rcases List.mem_cons.mp hx with rfl | hx
  · exact Or.inr hc
  · exact h x hx

theorem isoChar_append {cs ds : List Char} (h : ∀ c ∈ cs, IsoChar c) (h' : ∀ c ∈ ds, IsoChar c) :
    ∀ x ∈ cs ++ ds, IsoChar x := by
  intro x hx
  rcases List.mem_append.mp hx with hx | hx
  · exact h x hx
  · exact h' x hx

theorem isoChar_isoDate (days : Int) : ∀ c ∈ (isoDate days).toList, IsoChar c := by
  have hyear : ∀ y, ∀ c ∈ padYear y, IsoChar c := by
    intro y
    unfold padYear
    split
    · exact isoChar_pad
    · exact isoChar_cons (by decide) isoChar_pad
  rw [isoDate, String.toList_ofList]
  exact isoChar_append (hyear _) (isoChar_cons (by decide) (isoChar_append isoChar_pad
    (isoChar_cons (by decide) isoChar_pad)))

theorem isoChar_clock (second : Nat) : ∀ c ∈ clock second, IsoChar c :=
  isoChar_append isoChar_pad (isoChar_cons (by decide) (isoChar_append isoChar_pad
    (isoChar_cons (by decide) isoChar_pad)))

theorem isoChar_utcOffset : ∀ c ∈ "+00:00".toList, IsoChar c := by
  have hzero : IsoChar '0' := Or.inl ⟨0, by decide, rfl⟩
  intro c hc
  have hcases : c = '+' ∨ c = '0' ∨ c = ':' := by simpa [or_assoc, or_comm, or_left_comm] using hc
  rcases hcases with rfl | rfl | rfl
  · exact Or.inr (by decide)
  · exact hzero
  · exact Or.inr (by decide)

theorem isoChar_isoUtcMicros (instant : Int) : ∀ c ∈ (isoUtcMicros instant).toList, IsoChar c := by
  rw [isoUtcMicros, String.toList_append, String.toList_ofList]
  exact isoChar_append (isoChar_isoDate _) (isoChar_cons (by decide) (isoChar_append (isoChar_clock _)
    (isoChar_cons (by decide) (isoChar_append isoChar_pad isoChar_utcOffset))))

/-! ### Dates are determined by their texts -/

theorem signed_injective (width : Nat) :
    Function.Injective fun y : Int => if 0 ≤ y then pad width y.toNat else '-' :: pad width (-y).toNat := by
  have hhead : ∀ n m, pad width n ≠ '-' :: pad width m := by
    intro n m h
    obtain ⟨d, hd, hc⟩ := pad_digit (h ▸ List.mem_cons_self : '-' ∈ pad width n)
    have hall : ∀ i < 10, '-' ≠ Nat.digitChar i := by decide
    exact hall d hd hc
  intro y z h
  simp only at h
  split at h <;> split at h
  · have := pad_injective width h
    omega
  · exact absurd h (hhead _ _)
  · exact absurd h.symm (hhead _ _)
  · have := pad_injective width (List.cons.inj h).2
    omega

theorem padYear_injective : Function.Injective padYear := signed_injective 4

theorem isoDate_injective : Function.Injective isoDate := by
  intro a b h
  have hb := civil_bounds
  have hm : ∀ d, (civil d).month.toNat < 100 := fun d => by
    have := hb d
    omega
  have hd : ∀ d, (civil d).day.toNat < 100 := fun d => by
    have := hb d
    omega
  have hlist := congrArg String.toList h
  rw [isoDate, isoDate, String.toList_ofList, String.toList_ofList] at hlist
  obtain ⟨hyear, hrest⟩ := List.append_inj' hlist (by simp [length_pad_two, hm, hd])
  obtain ⟨hmonth, hday⟩ := List.append_inj' (List.cons.inj hrest).2 (by simp [length_pad_two, hd])
  refine civil_injective (Civil.ext (padYear_injective hyear) ?_ ?_)
  · have := pad_injective 2 hmonth
    have := hb a
    have := hb b
    omega
  · have := pad_injective 2 (List.cons.inj hday).2
    have := hb a
    have := hb b
    omega

/-! ### Instants are determined by their texts -/

theorem length_clock {second : Nat} (h : second < 86400) : (clock second).length = 8 := by
  have hhour : second / 3600 < 100 := by omega
  have hminute : second / 60 % 60 < 100 := by omega
  have hsecond : second % 60 < 100 := by omega
  simp [clock, length_pad_two, hhour, hminute, hsecond]

theorem clock_injective {s t : Nat} (hs : s < 86400) (ht : t < 86400) (h : clock s = clock t) : s = t := by
  have hlength : ∀ {u}, u < 86400 → (pad 2 (u / 3600)).length = 2 ∧ (pad 2 (u / 60 % 60)).length = 2 := by
    intro u hu
    exact ⟨length_pad_two (by omega), length_pad_two (by omega)⟩
  obtain ⟨hhour, hrest⟩ := List.append_inj h ((hlength hs).1.trans (hlength ht).1.symm)
  obtain ⟨hminute, hsecond⟩ := List.append_inj (List.cons.inj hrest).2 ((hlength hs).2.trans (hlength ht).2.symm)
  have h1 := pad_injective 2 hhour
  have h2 := pad_injective 2 hminute
  have h3 := pad_injective 2 (List.cons.inj hsecond).2
  omega

theorem isoUtcMicros_injective : Function.Injective isoUtcMicros := by
  intro a b h
  have ha := Int.emod_nonneg a (by decide : (86400000000 : Int) ≠ 0)
  have hb := Int.emod_nonneg b (by decide : (86400000000 : Int) ≠ 0)
  have ha' := Int.emod_lt_of_pos a (by decide : (0 : Int) < 86400000000)
  have hb' := Int.emod_lt_of_pos b (by decide : (0 : Int) < 86400000000)
  have hlist := congrArg String.toList h
  simp only [isoUtcMicros, String.toList_append, String.toList_ofList] at hlist
  generalize hta : (a % 86400000000).toNat = ta at hlist
  generalize htb : (b % 86400000000).toNat = tb at hlist
  have hclock : ∀ {t : Nat}, t < 86400000000 →
      (clock (t / 1000000)).length = 8 ∧ (pad 6 (t % 1000000)).length = 6 := by
    intro t ht
    exact ⟨length_clock (by omega), length_pad (by omega)⟩
  have hca := hclock (t := ta) (by omega)
  have hcb := hclock (t := tb) (by omega)
  obtain ⟨hdate, htime⟩ := List.append_inj' hlist (by simp [hca, hcb])
  obtain ⟨hsecond, hfraction⟩ := List.append_inj (List.cons.inj htime).2 (hca.1.trans hcb.1.symm)
  obtain ⟨hmicro, -⟩ := List.append_inj (List.cons.inj hfraction).2 (hca.2.trans hcb.2.symm)
  have hday := isoDate_injective (String.toList_inj.mp hdate)
  have hs := clock_injective (by omega) (by omega) hsecond
  have hm := pad_injective 6 hmicro
  omega

end IsoTime
