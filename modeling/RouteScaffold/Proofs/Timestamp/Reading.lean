import Mathlib.Algebra.Group.Nat.Defs
import RouteScaffold.Proofs.Route.Tags
import RouteScaffold.Timestamp.Reader

/-!
# Moments Read From Documents

A moment is kept in its written form, with its zone, and what is written is read back as it
was if there is such a moment in the calendar.

A moment may also be read from a number, and then its date has to be found. Where the year
begins is only estimated from the day, but the estimate is never off by more than one, so
the moment lies where the number says.

## Theorems

* `ofText?_text`: A moment is read back from its written form.
* `yearOfDay_spec`, `dayFrom_spec`: The year, the month and the day of a day by its number.
* `micros_ofMicros`, `instant_of_ofUnix?`: A moment that a number says lies where it says.
-/

namespace RouteScaffold

namespace Timestamp

/-! ### Written forms -/

theorem digit_char : ∀ k < 10, (Char.ofNat ('0'.toNat + k)).isDigit = true
    ∧ (Char.ofNat ('0'.toNat + k)).toNat - '0'.toNat = k := by decide

theorem number?_add (a b soFar : Nat) (t : Text) : number? (a + b) soFar t
    = (number? a soFar t).bind fun r => number? b r.1 r.2 := by
  induction a generalizing soFar t with
  | zero => rw [Nat.zero_add, number?, Option.bind_some]
  | succ a ih =>
      rw [show a + 1 + b = a + b + 1 by omega]
      cases t with
      | nil => rfl
      | cons c t =>
          rw [number?, number?]
          split
          · exact ih _ _
          · rfl

/-- A number is read back from its digits. -/
theorem number?_digits (width soFar : Nat) {n : Nat} (h : n < 10 ^ width) (t : Text) :
    number? width soFar (digits width n ++ t) = some (soFar * 10 ^ width + n, t) := by
  induction width generalizing n t with
  | zero =>
      have : n = 0 := by simpa using h
      simp [digits, number?, this]
  | succ width ih =>
      have hhigh : n / 10 < 10 ^ width := by
        rw [Nat.pow_succ] at h
        omega
      rw [digits, List.append_assoc, number?_add, ih hhigh, Option.bind_some]
      -- The last digit is the remainder, and the others are read before it.
      have hdigit := digit_char (n % 10) (Nat.mod_lt _ (by omega))
      rw [List.singleton_append, number?, if_pos hdigit.1, hdigit.2, number?]
      rw [Nat.pow_succ, show (soFar * 10 ^ width + n / 10) * 10 + n % 10 = soFar * (10 ^ width * 10) + n by
        rw [Nat.add_mul, Nat.mul_assoc]
        omega]

/-- What digits spell ends where they end. -/
theorem digits_append {ds t : Text} (hds : ∀ c ∈ ds, c.isDigit = true) (ht : t.head?.any Char.isDigit = false) :
    Json.digits (ds ++ t) = (ds, t) := by
  induction ds with
  | nil =>
      cases t with
      | nil => rfl
      | cons c t =>
          have hc : c.isDigit = false := ht
          simp [Json.digits, hc]
  | cons c ds ih =>
      have hc : c.isDigit = true := hds c (by simp)
      have hrest := ih fun e he => hds e (by simp [he])
      simp only [Json.digits, Prod.mk.injEq] at hrest ⊢
      simp [hc, hrest.1, hrest.2]

theorem isDigit_of_mem_digits (width n : Nat) : ∀ c ∈ digits width n, c.isDigit = true := by
  induction width generalizing n with
  | zero => exact fun c hc => absurd hc (by simp [digits])
  | succ width ih =>
      rw [digits, List.forall_mem_append, List.forall_mem_singleton]
      exact ⟨ih _, (digit_char (n % 10) (Nat.mod_lt _ (by omega))).1⟩

theorem minutes?_text {n : Nat} (h : n < minutesOfDay) :
    minutes? (digits 2 (n / 60) ++ ':' :: digits 2 (n % 60)) = some n := by
  have hcolon : ∀ u : Text, Text.after? ":" (':' :: u) = some u := fun u => Tag.after?_append [':'] u
  have hlast : number? 2 0 (digits 2 (n % 60)) = some (n % 60, []) := by
    have := number?_digits 2 0 (n := n % 60) (by omega) []
    simpa using this
  rw [minutesOfDay] at h
  rw [minutes?, number?_digits 2 0 (by omega)]
  dsimp only [Option.bind_eq_bind, Option.bind_some]
  rw [hcolon, Option.getD_some, hlast, Option.bind_some]
  dsimp only
  rw [Nat.zero_mul, Nat.zero_add, if_pos (by simp; omega), Nat.mul_comm, Nat.div_add_mod]

/-- A zone is read back from its mark. -/
theorem zone?_text {z : Zone} (h : z.isValid = true) : zone? z.text = some z := by
  cases z with
  | unmarked => rfl
  | ahead minutes =>
      have hday : minutes.natAbs < minutesOfDay := of_decide_eq_true h
      -- No offset is written as a letter, any other with its sign.
      rw [Zone.text]
      split
      · next hzero => rw [hzero]; rfl
      · split
        · next hneg =>
            change zone? ('-' :: (digits 2 (minutes.natAbs / 60) ++ [':'] ++ digits 2 (minutes.natAbs % 60))) = _
            rw [List.append_assoc, List.singleton_append, zone?, if_neg (by decide), if_neg (by decide),
              if_pos (by decide), minutes?_text hday, Option.map_some]
            congr 2
            omega
        · next hpos =>
            change zone? ('+' :: (digits 2 (minutes.natAbs / 60) ++ [':'] ++ digits 2 (minutes.natAbs % 60))) = _
            rw [List.append_assoc, List.singleton_append, zone?, if_neg (by decide), if_pos rfl,
              minutes?_text hday, Option.map_some]
            congr 2
            omega

/-- The mark of a zone is no part of the seconds before it. -/
theorem head_zone (z : Zone) : z.text = [] ∨ ∃ c t, z.text = c :: t ∧ c ∈ ['Z', '+', '-'] := by
  cases z with
  | unmarked => exact Or.inl rfl
  | ahead minutes =>
      refine Or.inr ?_
      rw [Zone.text]
      split
      · exact ⟨'Z', [], rfl, by simp⟩
      · split
        · exact ⟨'-', _, rfl, by simp⟩
        · exact ⟨'+', _, rfl, by simp⟩

theorem decimals?_text {micro : Nat} (h : micro < 1000000) (z : Zone) :
    decimals? ((if micro = 0 then [] else '.' :: digits 6 micro) ++ z.text) = some (micro, z.text) := by
  split
  · next hzero =>
      rw [hzero, List.nil_append]
      rcases head_zone z with hz | ⟨c, t, hz, hc⟩
      · rw [hz]; rfl
      · rw [hz, decimals?, if_neg]
        simp only [List.mem_cons, List.not_mem_nil, or_false] at hc
        rcases hc with rfl | rfl | rfl <;> decide
  · have hends : z.text.head?.any Char.isDigit = false := by
      rcases head_zone z with hz | ⟨c, t, hz, hc⟩
      · rw [hz]; rfl
      · rw [hz]
        simp only [List.mem_cons, List.not_mem_nil, or_false] at hc
        rcases hc with rfl | rfl | rfl <;> rfl
    have hne : digits 6 micro ≠ [] := by simp [digits]
    rw [List.cons_append, decimals?, if_pos (by simp), digits_append (isDigit_of_mem_digits 6 micro) hends]
    dsimp only
    rw [if_neg hne, number?_digits 6 0 h, Nat.zero_mul, Nat.zero_add]
    rfl

/-- A moment is read back from its written form. -/
theorem ofText?_text {t : Timestamp} (h : t.isValid = true) : ofText? t.text = some t := by
  have hvalid := h
  simp only [isValid, Bool.and_eq_true, decide_eq_true_eq] at h
  rcases h with ⟨⟨⟨⟨⟨⟨⟨⟨⟨⟨-, hyear⟩, -⟩, hmonth⟩, -⟩, hday⟩, hhour⟩, hminute⟩, hsecond⟩, hmicro⟩, hzone⟩
  -- A day has two digits, as no month is longer.
  have hdays : t.day < 100 := by
    have hlength : monthLength t.year t.month ≤ 31 := by
      rw [monthLength]
      split
      · split <;> omega
      · split <;> omega
    omega
  have hafter : ∀ (c : Char) (u : Text), Text.after? [c] (c :: u) = some u := fun c u =>
    Tag.after?_append [c] u
  -- The text is read from the left, one number after the other.
  have htext : t.text = digits 4 t.year ++ ('-' :: (digits 2 t.month ++ ('-' :: (digits 2 t.day
      ++ ('T' :: (digits 2 t.hour ++ (':' :: (digits 2 t.minute ++ (':' :: (digits 2 t.second
      ++ ((if t.micro = 0 then [] else '.' :: digits 6 t.micro) ++ t.zone.text))))))))))) := by
    rw [text]
    simp [List.append_assoc]
  have hseconds : seconds? (':' :: (digits 2 t.second ++ ((if t.micro = 0 then [] else '.' :: digits 6 t.micro)
      ++ t.zone.text))) = some (t.second, t.micro, t.zone.text) := by
    rw [seconds?, number?_digits 2 0 (by omega)]
    dsimp only [Option.bind_eq_bind, Option.bind_some]
    rw [decimals?_text hmicro, Option.bind_some, Nat.zero_mul, Nat.zero_add]
  have hspelled : spelled? t.text = some t := by
    rw [htext, spelled?, number?_digits 4 0 (by omega)]
    dsimp only [Option.bind_eq_bind, Option.bind_some]
    rw [show ("-" : Text) = ['-'] from rfl, show (":" : Text) = [':'] from rfl]
    rw [hafter, Option.bind_some, number?_digits 2 0 (by omega), Option.bind_some, hafter,
      Option.bind_some, number?_digits 2 0 (by omega), Option.bind_some]
    dsimp only
    rw [if_neg (by simp), number?_digits 2 0 (by omega), Option.bind_some, hafter, Option.bind_some,
      number?_digits 2 0 (by omega), Option.bind_some, hseconds, Option.bind_some, zone?_text hzone,
      Option.bind_some]
    simp only [Nat.zero_mul, Nat.zero_add]
  rw [ofText?, hspelled]
  exact if_pos hvalid

/-! ### Moments by number -/

/-- The year of a day begins no later than the day, and the next year behind it. -/
theorem yearOfDay_spec (day : Nat) : 1 ≤ yearOfDay day ∧ daysBeforeYear (yearOfDay day) ≤ day
    ∧ day < daysBeforeYear (yearOfDay day + 1) := by
  rw [yearOfDay]
  generalize he : day * 400 / 146097 = e
  -- Four hundred years have 146097 days, so a year has no more and no less than a day beside the mean.
  split
  · next hearly =>
      simp only [daysBeforeYear, Nat.add_sub_cancel] at hearly ⊢
      omega
  · next hearly =>
      split
      · next hlate =>
          simp only [daysBeforeYear, Nat.add_sub_cancel] at hearly hlate ⊢
          omega
      · next hlate => exact ⟨by omega, by omega, by omega⟩

theorem daysBeforeMonth_succ (year : Nat) {month : Nat} (h : 1 ≤ month) :
    daysBeforeMonth year (month + 1) = daysBeforeMonth year month + monthLength year month := by
  obtain ⟨m, rfl⟩ : ∃ m, month = m + 1 := ⟨month - 1, by omega⟩
  rfl

theorem daysBeforeMonth_end (year : Nat) :
    daysBeforeMonth year 13 = if isLeap year then 366 else 365 := by
  simp only [daysBeforeMonth, monthLength]
  cases isLeap year <;> simp

/-- A year of the calendar is as long as its months. -/
theorem daysBeforeYear_succ {year : Nat} (h : 1 ≤ year) :
    daysBeforeYear (year + 1) = daysBeforeYear year + daysBeforeMonth year 13 := by
  obtain ⟨past, rfl⟩ : ∃ past, year = past + 1 := ⟨year - 1, by omega⟩
  have hfour : (past + 1) / 4 = past / 4 + if (past + 1) % 4 = 0 then 1 else 0 := by
    split <;> omega
  have hhundred : (past + 1) / 100 = past / 100 + if (past + 1) % 100 = 0 then 1 else 0 := by
    split <;> omega
  have hcycle : (past + 1) / 400 = past / 400 + if (past + 1) % 400 = 0 then 1 else 0 := by
    split <;> omega
  have hle : past / 100 ≤ past / 4 := by omega
  rw [daysBeforeMonth_end, isLeap]
  simp only [daysBeforeYear, Nat.add_sub_cancel, hfour, hhundred, hcycle]
  -- A year that four hundred divides is divided by a hundred, and that by four.
  by_cases h4 : (past + 1) % 4 = 0
  · by_cases h100 : (past + 1) % 100 = 0
    · by_cases h400 : (past + 1) % 400 = 0
      · simp [h4, h100, h400]
        omega
      · simp [h4, h100, h400]
        omega
    · have h400 : (past + 1) % 400 ≠ 0 := by omega
      simp [h4, h100, h400]
      omega
  · have h100 : (past + 1) % 100 ≠ 0 := by omega
    have h400 : (past + 1) % 400 ≠ 0 := by omega
    simp [h4, h100, h400]
    omega

/-- A day of the rest of a year is told as a day of one of its months. -/
theorem dayFrom_spec {year left month days : Nat} (hmonth : 1 ≤ month) (hleft : month + left = 12)
    (hdays : daysBeforeMonth year month + days < daysBeforeMonth year 13) :
    (1 ≤ (dayFrom year left month days).1 ∧ (dayFrom year left month days).1 ≤ 12)
    ∧ (1 ≤ (dayFrom year left month days).2
      ∧ (dayFrom year left month days).2 ≤ monthLength year (dayFrom year left month days).1)
    ∧ daysBeforeMonth year (dayFrom year left month days).1 + ((dayFrom year left month days).2 - 1)
      = daysBeforeMonth year month + days := by
  induction left generalizing month days with
  | zero =>
      obtain rfl : month = 12 := hleft
      have hlast : daysBeforeMonth year 13 = daysBeforeMonth year 12 + monthLength year 12 :=
        daysBeforeMonth_succ year (by omega)
      rw [dayFrom]
      dsimp only
      omega
  | succ left ih =>
      rw [dayFrom]
      split
      · dsimp only
        omega
      · next hlong =>
          have hnext := daysBeforeMonth_succ year hmonth
          rcases @ih (month + 1) (days - monthLength year month) (by omega) (by omega)
            (by omega) with ⟨hm, hd, heq⟩
          exact ⟨hm, hd, by omega⟩

theorem dayNumber_ofMicros (n : Nat) : (ofMicros n).dayNumber = n / microsOfMinute / minutesOfDay := by
  rw [dayNumber, ofMicros]
  dsimp only
  generalize n / microsOfMinute / minutesOfDay = day
  rcases yearOfDay_spec day with ⟨hyear, hbegun, hover⟩
  rw [daysBeforeYear_succ hyear] at hover
  have hfirst : daysBeforeMonth (yearOfDay day) 1 = 0 := rfl
  have heq := (@dayFrom_spec (yearOfDay day) 11 1 (day - daysBeforeYear (yearOfDay day)) (by omega) rfl (by omega)).2.2
  omega

/-- A moment that is told by how far it lies behind the start of the calendar lies as far
    behind it. -/
theorem micros_ofMicros (n : Nat) : (ofMicros n).micros = n := by
  have hday := dayNumber_ofMicros n
  rw [micros, hday]
  simp only [ofMicros, microsOfMinute, minutesOfDay]
  omega

/-- A moment that a number says lies as far behind the start of its count as the number says,
    in universal time. -/
theorem instant_of_ofUnix? {negative : Bool} {n d : Nat} {t : Timestamp} (h : ofUnix? negative n d = some t) :
    t.isMarked = true ∧ t.instant = epoch + (2 * Json.signed negative (n * if n ≤ secondsLimit * d then 1000000 else 1000) + d)
      / (2 * d) := by
  rw [ofUnix?] at h
  generalize (2 * Json.signed negative (n * if n ≤ secondsLimit * d then 1000000 else 1000) + (d : Int)) / (2 * d) = count
    at h ⊢
  split at h
  · next hsome =>
      rw [Bool.and_eq_true, decide_eq_true_eq] at hsome
      rw [← Option.some.inj h]
      refine ⟨rfl, ?_⟩
      rw [instant, micros_ofMicros, show (ofMicros _).zone = .ahead 0 from rfl, Zone.minutes, Int.zero_mul, Int.sub_zero]
      exact Int.toNat_of_nonneg hsome.1
  · exact absurd h (by simp)

end Timestamp

end RouteScaffold
