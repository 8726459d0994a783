import ReactiveView.Number.Layout
import ReactiveView.Proofs.Text.Characters
/-!
# Numerals are read back

The text of a finite number in data is a sign and a positional numeral. The numeral stands for a
count of `10^-1074` (`numeralCount`), and the magnitude nearest to this count is the number's own:
the search for few digits takes a neighbour on a grid only if it rounds back, and the finest grid
holds the magnitude itself. So two finite numbers with one text are one number, up to the sign of
zero, which is not written.

Results:
* `Decimal.standsFor_shortest`: the decimal that is written rounds to the magnitude.
* `Number.dataText_finite`: the text of a finite number is its sign and a numeral for its magnitude.
* `Number.unsigned_eq_of_dataText`: the text of a finite number tells the number.
-/
namespace ReactiveView

namespace Decimal

open Number (Representable nearest one)

/-! ## Decimals that round to a magnitude -/

/-- The count of `10^-1074` in a decimal whose exponent does not go below that. -/
def count (d : Decimal) : Nat := d.digits * Nat.pow 10 (d.exponent + places).toNat

/-- A decimal stands for a magnitude if it rounds to it, and its places are at most those that a
magnitude needs. -/
structure StandsFor (d : Decimal) (u : Nat) : Prop where
  exponent : -(places : Int) ≤ d.exponent
  rounds : nearest d.count unit = u

theorem unit_pos : 0 < unit := by decide +kernel

theorem one_mul_unit : one * unit = Nat.pow 10 places := by decide +kernel

/-- A magnitude in units of `10^-1074` rounds to itself. -/
theorem nearest_expansion {u : Nat} (h : Representable u) : nearest (expansion u) unit = u :=
  Number.nearest_mul h unit_pos

theorem standsFor_grid {n power u : Nat} (h : nearest (n * Nat.pow 10 power) unit = u) :
    StandsFor ⟨n, power - places⟩ u where
  exponent := by
    have hle : -(places : Int) ≤ (power : Int) - places := by omega
    exact hle
  rounds := by
    have hpower : ((power : Int) - places + places).toNat = power := by omega
    rw [count, hpower]
    exact h

/-- What is taken from a grid rounds back. -/
theorem nearest_onGrid {tie : Tie} {u grid d : Nat} (h : onGrid tie u grid = some d) :
    nearest (d * grid) unit = u := by
  have rounds {n : Nat} (hn : readsBack u n = true) : nearest n unit = u := beq_iff_eq.mp hn
  unfold onGrid at h
  simp only at h
  split at h
  next hbelow habove =>
    split at h
    · cases h; exact rounds hbelow
    · cases h; exact rounds habove
    · split at h
      · cases h; exact rounds hbelow
      · cases h; exact rounds habove
  next hbelow habove => cases h; exact rounds hbelow
  next hbelow habove => cases h; exact rounds habove
  next => contradiction

theorem standsFor_search (tie : Tie) {u : Nat} (h : Representable u) (power : Nat) :
    (search tie u power).StandsFor u := by
  induction power with
  | zero =>
    have hself : nearest (expansion u * Nat.pow 10 0) unit = u := by
      rw [Nat.mul_one (expansion u)]
      exact nearest_expansion h
    have hgrid := standsFor_grid hself
    rw [Int.natCast_zero, Int.zero_sub] at hgrid
    simp only [search]
    exact hgrid
  | succ power ih =>
    simp only [search]
    split
    next d hd => exact standsFor_grid (nearest_onGrid hd)
    next => exact ih

/-- Ten times fewer digits with the exponent one up are the same count. -/
theorem count_div_ten {n : Nat} {e : Int} (hn : n % 10 = 0) (he : -(places : Int) ≤ e) :
    count ⟨n / 10, e + 1⟩ = count ⟨n, e⟩ := by
  have hexp : (e + 1 + places).toNat = (e + places).toNat + 1 := by omega
  have hdigits : n / 10 * 10 = n := Nat.div_mul_cancel (Nat.dvd_of_mod_eq_zero hn)
  simp only [count, hexp]
  calc n / 10 * Nat.pow 10 ((e + places).toNat + 1)
      = n / 10 * (10 * Nat.pow 10 (e + places).toNat) := by
        rw [Nat.mul_comm 10]
        rfl
    _ = n * Nat.pow 10 (e + places).toNat := by rw [← Nat.mul_assoc, hdigits]

theorem StandsFor.strip {d : Decimal} {u : Nat} (hd : d.StandsFor u) : d.strip.StandsFor u := by
  obtain ⟨digits, exponent⟩ := d
  unfold Decimal.strip
  simp only
  induction digits, exponent using strip.go.induct with
  | case1 digits exponent hzero ih =>
    unfold strip.go
    rw [dif_pos hzero]
    refine ih ⟨Int.le_trans hd.exponent (Int.le_add_one (Int.le_refl _)), ?_⟩
    rw [count_div_ten hzero.2 hd.exponent]
    exact hd.rounds
  | case2 digits exponent hlast =>
    unfold strip.go
    rw [dif_neg hlast]
    exact hd

theorem standsFor_shortest (tie : Tie) {u : Nat} (h : Representable u) :
    (shortest tie u).StandsFor u := by
  unfold shortest
  split
  next hu =>
    subst hu
    refine ⟨by decide, ?_⟩
    have hcount : count ⟨0, 0⟩ = expansion 0 := by
      simp only [count, expansion, Nat.zero_mul, Nat.mul_zero]
    rw [hcount]
    exact nearest_expansion h
  next => exact (standsFor_search tie h _).strip

/-! ## Numerals -/

/-- The count of `10^-1074` that a positional numeral stands for: its digits without the point, and
as many places fewer as it has digits behind the point. -/
def numeralCount (cs : List Char) : Nat :=
  let front := cs.takeWhile (· ≠ '.')
  let back := (cs.dropWhile (· ≠ '.')).drop 1
  Nat.ofDigitChars 10 (front ++ back) 0 * Nat.pow 10 (places - back.length)

theorem ne_point_of_isDigit {c : Char} (h : c.isDigit) : (decide (c ≠ '.')) = true := by
  rw [decide_eq_true_eq]
  rintro rfl
  exact absurd h (by decide)

theorem numeralCount_whole {cs : List Char} (h : ∀ c ∈ cs, c.isDigit) :
    numeralCount cs = Nat.ofDigitChars 10 cs 0 * Nat.pow 10 places := by
  have hall : ∀ c ∈ cs, decide (c ≠ '.') = true := fun c hc => ne_point_of_isDigit (h c hc)
  have hfront := Text.takeWhile_append_stop hall (Text.stops_nil _)
  have hback := Text.dropWhile_append_stop hall (Text.stops_nil _)
  rw [List.append_nil] at hfront hback
  simp only [numeralCount, hfront, hback, List.drop_nil, List.append_nil, List.length_nil,
    Nat.sub_zero]

theorem numeralCount_point {front : List Char} (h : ∀ c ∈ front, c.isDigit) (back : List Char) :
    numeralCount (front ++ '.' :: back) =
      Nat.ofDigitChars 10 (front ++ back) 0 * Nat.pow 10 (places - back.length) := by
  have hall : ∀ c ∈ front, decide (c ≠ '.') = true := fun c hc => ne_point_of_isDigit (h c hc)
  have hstop : Text.Stops (fun c => decide (c ≠ '.')) ('.' :: back) :=
    Text.stops_cons (by decide) back
  have hfront := Text.takeWhile_append_stop hall hstop
  have hback := Text.dropWhile_append_stop hall hstop
  simp only [numeralCount, hfront, hback, List.drop_succ_cons, List.drop_zero]

theorem ofDigitChars_decimal (n : Nat) : Nat.ofDigitChars 10 (Text.decimal n) 0 = n :=
  Nat.ofDigitChars_toDigits (by decide) (by decide)

/-- A numeral in front of which zeros are written has its value. -/
theorem ofDigitChars_zeros (k : Nat) (cs : List Char) :
    Nat.ofDigitChars 10 (List.replicate k '0' ++ cs) 0 = Nat.ofDigitChars 10 cs 0 := by
  rw [Nat.ofDigitChars_append, Nat.ofDigitChars_replicate_zero, Nat.mul_zero]

theorem isDigit_of_mem_zeros {k : Nat} {c : Char} (h : c ∈ List.replicate k '0') : c.isDigit := by
  rw [List.eq_of_mem_replicate h]
  decide

/-- What is written with a point where the exponent puts it stands for the decimal. -/
theorem numeralCount_writePositional (n : Nat) {e : Int} (he : -(places : Int) ≤ e) :
    numeralCount (Layout.plain.writePositional (Text.decimal n) e) = count ⟨n, e⟩ := by
  have hdigits : ∀ c ∈ Text.decimal n, c.isDigit := fun c hc => Text.isDigit_of_mem_decimal hc
  cases e with
  | ofNat zeros =>
    have hall : ∀ c ∈ Text.decimal n ++ List.replicate zeros '0', c.isDigit :=
      List.forall_mem_append.mpr ⟨hdigits, fun c hc => isDigit_of_mem_zeros hc⟩
    have hexp : (Int.ofNat zeros + places).toNat = zeros + places := by
      rw [Int.ofNat_eq_natCast]
      omega
    simp only [Layout.writePositional, Layout.plain, Bool.false_eq_true, if_false, List.append_nil,
      count, hexp]
    rw [numeralCount_whole hall, Nat.ofDigitChars_append, ofDigitChars_decimal,
      Nat.ofDigitChars_replicate_zero, Nat.mul_comm _ n, Nat.mul_assoc]
    generalize places = p
    exact congrArg (n * ·) (Nat.pow_add 10 zeros p).symm
  | negSucc k =>
    have hk : k + 1 ≤ places := by omega
    have hexp : (Int.negSucc k + places).toNat = places - (k + 1) := by omega
    simp only [Layout.writePositional, count, hexp]
    split
    next hlt =>
      have hfront : ∀ c ∈ (Text.decimal n).take ((Text.decimal n).length - (k + 1)), c.isDigit :=
        fun c hc => hdigits c (List.mem_of_mem_take hc)
      rw [numeralCount_point hfront, List.take_append_drop, ofDigitChars_decimal, List.length_drop,
        Nat.sub_sub_self (Nat.le_of_lt hlt)]
    next hle =>
      have hfront : ∀ c ∈ ['0'], c.isDigit := List.forall_mem_singleton.mpr (by decide)
      have hlength : (List.replicate (k + 1 - (Text.decimal n).length) '0' ++
          Text.decimal n).length = k + 1 := by
        rw [List.length_append, List.length_replicate]
        omega
      have hcount := numeralCount_point hfront
        (List.replicate (k + 1 - (Text.decimal n).length) '0' ++ Text.decimal n)
      rw [hlength] at hcount
      refine hcount.trans ?_
      rw [← List.replicate_one, ofDigitChars_zeros, ofDigitChars_zeros, ofDigitChars_decimal]

/-- A text spells a magnitude: a positional numeral whose count rounds to it. -/
structure Spells (cs : List Char) (u : Nat) : Prop where
  ne_nil : cs ≠ []
  chars : ∀ c ∈ cs, c.isDigit ∨ c = '.'
  rounds : nearest (numeralCount cs) unit = u

theorem Spells.unique {cs : List Char} {u w : Nat} (hu : Spells cs u) (hw : Spells cs w) : u = w :=
  hu.rounds.symm.trans hw.rounds

theorem chars_writePositional (n : Nat) (e : Int) :
    ∀ c ∈ Layout.plain.writePositional (Text.decimal n) e, c.isDigit ∨ c = '.' := by
  have hdigits : ∀ c ∈ Text.decimal n, c.isDigit := fun c hc => Text.isDigit_of_mem_decimal hc
  intro c hc
  cases e with
  | ofNat zeros =>
    simp only [Layout.writePositional, Layout.plain, Bool.false_eq_true, if_false, List.append_nil,
      List.mem_append] at hc
    exact .inl (hc.elim (hdigits c) isDigit_of_mem_zeros)
  | negSucc k =>
    simp only [Layout.writePositional] at hc
    split at hc
    · rcases List.mem_append.mp hc with hc | hc
      · exact .inl (hdigits c (List.mem_of_mem_take hc))
      · rcases List.mem_cons.mp hc with rfl | hc
        · exact .inr rfl
        · exact .inl (hdigits c (List.mem_of_mem_drop hc))
    · simp only [List.cons_append, List.mem_cons, List.mem_append] at hc
      rcases hc with rfl | rfl | hc | hc
      · exact .inl (by decide)
      · exact .inr rfl
      · exact .inl (isDigit_of_mem_zeros hc)
      · exact .inl (hdigits c hc)

theorem StandsFor.spells {d : Decimal} {u : Nat} (hd : d.StandsFor u) :
    Spells (Layout.plain.writePositional (Text.decimal d.digits) d.exponent) u where
  ne_nil := by
    have hne := Text.decimal_ne_nil d.digits
    cases d.exponent with
    | ofNat zeros => simp [Layout.writePositional, hne]
    | negSucc k =>
      simp only [Layout.writePositional]
      split <;> simp
  chars := chars_writePositional d.digits d.exponent
  rounds := by rw [numeralCount_writePositional d.digits hd.exponent, hd.rounds]

/-- The integer numeral of a whole magnitude spells it. -/
theorem spells_decimal {u : Nat} (h : Representable u) (hwhole : u % one = 0) :
    Spells (Text.decimal (u / one)) u where
  ne_nil := Text.decimal_ne_nil _
  chars c hc := .inl (Text.isDigit_of_mem_decimal hc)
  rounds := by
    have hcount : numeralCount (Text.decimal (u / one)) = expansion u := by
      rw [numeralCount_whole fun c hc => Text.isDigit_of_mem_decimal hc, ofDigitChars_decimal,
        ← one_mul_unit, ← Nat.mul_assoc, Nat.div_mul_cancel (Nat.dvd_of_mod_eq_zero hwhole),
        Nat.mul_comm, expansion]
    rw [hcount]
    exact nearest_expansion h

end Decimal

namespace Number

/-! ## Numbers in data -/

/-- The number without a sign on zero. -/
def unsigned : Number → Number
  | finite negative size => finite (negative && size.units != 0) size
  | n => n

theorem integerText_ofNat (negative : Bool) (n : Nat) :
    integerText (if negative then -(n : Int) else n) =
      (if negative && n != 0 then ['-'] else []) ++ Text.decimal n := by
  cases negative with
  | false => simp [integerText]
  | true => simp [integerText, Nat.pos_iff_ne_zero]

theorem whole?_finite {negative : Bool} {size : Magnitude} {i : Int}
    (h : (finite negative size).whole? = some i) :
    size.units % one = 0 ∧
      (if negative then -((size.units / one : Nat) : Int) else (size.units / one : Nat)) = i := by
  simp only [whole?] at h
  split at h
  next hwhole => exact ⟨hwhole, Option.some.inj h⟩
  next => cases h

theorem short?_zero (negative : Bool) {size : Magnitude} (h : size.units = 0) :
    (finite negative size).short? = some 0 := by
  have hwhole : (finite negative size).whole? = some 0 := by
    simp [whole?, h]
  rw [short?, hwhole]
  rfl

/-- The text of a finite number is a minus sign, unless it is positive or zero, and a numeral for
its magnitude. -/
theorem dataText_finite (negative : Bool) (size : Magnitude) :
    ∃ cs, (finite negative size).dataText .plain =
        (if negative && size.units != 0 then ['-'] else []) ++ cs ∧
      Decimal.Spells cs size.units := by
  cases hshort : (finite negative size).short? with
  | some i =>
    obtain ⟨hwhole, rfl⟩ := whole?_finite (Option.eq_some_of_filter_eq_some hshort)
    have hzero : (size.units / one != 0) = (size.units != 0) := by
      have hback := Nat.div_mul_cancel (Nat.dvd_of_mod_eq_zero hwhole)
      by_cases hunits : size.units = 0
      · rw [hunits, Nat.zero_div]
      · have hquotient : size.units / one ≠ 0 := fun h => hunits (by rw [← hback, h, Nat.zero_mul])
        rw [bne_iff_ne.mpr hquotient, bne_iff_ne.mpr hunits]
    rw [dataText_of_short hshort, integerText_ofNat, hzero]
    exact ⟨_, rfl, Decimal.spells_decimal size.representable hwhole⟩
  | none =>
    have hne : (size.units != 0) = true := by
      rw [bne_iff_ne]
      intro hzero
      rw [short?_zero negative hzero] at hshort
      cases hshort
    rw [dataText_of_long hshort, hne, Bool.and_true]
    exact ⟨_, rfl, (Decimal.standsFor_shortest _ size.representable).spells⟩

theorem sign_append_inj {a b : Bool} {cs ds : List Char} {u w : Nat} (hcs : Decimal.Spells cs u)
    (hds : Decimal.Spells ds w)
    (h : (if a then ['-'] else []) ++ cs = (if b then ['-'] else []) ++ ds) : a = b ∧ cs = ds := by
  have noSign {es fs : List Char} {v : Nat} (hes : Decimal.Spells es v) : '-' :: fs ≠ es := by
    rintro rfl
    rcases hes.chars '-' List.mem_cons_self with hdigit | hpoint
    · exact absurd hdigit (by decide)
    · exact absurd hpoint (by decide)
  cases a <;> cases b
  · exact ⟨rfl, h⟩
  · exact absurd h.symm (noSign hcs)
  · exact absurd h (noSign hds)
  · exact ⟨rfl, (List.cons.inj h).2⟩

/-- The text of a finite number tells the number, up to the sign of zero. -/
theorem unsigned_eq_of_dataText {n m : Number} (hn : n.isFinite) (hm : m.isFinite)
    (h : n.dataText .plain = m.dataText .plain) : n.unsigned = m.unsigned := by
  cases n with
  | nan | infinite => cases hn
  | finite a size =>
    cases m with
    | nan | infinite => cases hm
    | finite b size' =>
      obtain ⟨cs, htext, hcs⟩ := dataText_finite a size
      obtain ⟨ds, htext', hds⟩ := dataText_finite b size'
      rw [htext, htext'] at h
      obtain ⟨hsign, rfl⟩ := sign_append_inj hcs hds h
      obtain ⟨u, hu⟩ := size
      obtain ⟨w, hw⟩ := size'
      obtain rfl : u = w := hcs.unique hds
      exact congrArg (finite · ⟨u, hu⟩) hsign

/-- The characters of numbers. -/
def isNumeral (c : Char) : Bool := c.isDigit || c == '.' || c == '-'

theorem isNumeral_dataText {n : Number} (hn : n.isFinite) :
    ∀ c ∈ n.dataText .plain, isNumeral c := by
  cases n with
  | nan | infinite => cases hn
  | finite negative size =>
    obtain ⟨cs, htext, hcs⟩ := dataText_finite negative size
    intro c hc
    rw [htext] at hc
    rcases List.mem_append.mp hc with hc | hc
    · have hsign : c = '-' := by
        split at hc
        · exact List.mem_singleton.mp hc
        · cases hc
      rw [hsign]
      decide
    · rcases hcs.chars c hc with hdigit | rfl
      · simp [isNumeral, hdigit]
      · decide

theorem dataText_ne_nil {n : Number} (hn : n.isFinite) : n.dataText .plain ≠ [] := by
  cases n with
  | nan | infinite => cases hn
  | finite negative size =>
    obtain ⟨cs, htext, hcs⟩ := dataText_finite negative size
    rw [htext]
    exact List.append_ne_nil_of_right_ne_nil _ hcs.ne_nil

/-- The sign of zero is not written. -/
theorem dataText_unsigned (n : Number) (l : Layout) : n.unsigned.dataText l = n.dataText l := by
  cases n with
  | nan | infinite => rfl
  | finite negative size =>
    by_cases hzero : size.units = 0
    · rw [unsigned, dataText_of_short (short?_zero _ hzero),
        dataText_of_short (short?_zero _ hzero)]
    · rw [unsigned, bne_iff_ne.mpr hzero, Bool.and_true]

end Number

end ReactiveView
