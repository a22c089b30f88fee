/-
  **Numbers as text, with the errors** (`from_decimal_str`, `from_hex_digits` and
  `from_binary_digits` of `U256` in `cambrian-core/src/lib.rs`).

  The readers of `Literals.lean` say only whether a number came out.  Here they return the
  errors of the source as well, and a panic is `none`: there is none, for any text.  A text
  is read exactly when its digits denote a number of 256 bits, and as that number.
-/
import CambrianLang.Lib.Utf8Text
import CambrianLang.Syntax.Literals

namespace CambrianLang.Syntax.Codec

open CambrianLang.Core Positional Str Utf8Text

/-! ### The readers -/

inductive U256ParseError where
  | empty
  | invalidDigit
  | overflow
  | tooManyDigits
deriving DecidableEq

/-- What a reader returns; `none` is a panic. -/
abbrev Parsed := Option (Except U256ParseError U256)

/-- `s.replace('_', "")`. -/
def withoutUnderscores (s : List Char) : List Char := s.filter (· ≠ '_')

/-- The loop of `from_decimal_str`. -/
def decimalLoop (maxQuotient : U256) (maxRemainder : Nat) : U256 → List Char → Parsed
  | result, [] => some (.ok result)
  | result, ch :: cs =>
    match digitIn 10 ch with
    | none => some (.error .invalidDigit)
    | some digit =>
      if maxQuotient.blt result || (result == maxQuotient && decide (maxRemainder < digit)) then
        some (.error .overflow)
      else
        (result.mul (U256.fromU128 10)).bind fun product =>
          (product.add (U256.fromU128 (BitVec.ofNat 128 digit))).bind fun sum =>
            decimalLoop maxQuotient maxRemainder sum cs

/-- `U256::from_decimal_str`. -/
def fromDecimalStr (s : List Char) : Parsed :=
  let s := withoutUnderscores s
  if s.isEmpty then some (.error .empty)
  else
    (U256.max.div (U256.fromU128 10)).bind fun maxQuotient =>
      (U256.max.rem (U256.fromU128 10)).bind fun maxRemainder =>
        decimalLoop maxQuotient (maxRemainder.lo.toNat % 2 ^ 32) U256.zero s

/-- `U256::from_hex_digits`. -/
def fromHexDigits (s : List Char) : Parsed :=
  let s := withoutUnderscores s
  if s.isEmpty then some (.error .empty)
  else if 64 < byteLen s then some (.error .tooManyDigits)
  else if !s.all fun c => (digitIn 16 c).isSome then some (.error .invalidDigit)
  else
    let padded := s.leftpad 64 '0'
    match hexWord (padded.take 32), hexWord (padded.drop 32) with
    | some hi, some lo => some (.ok ⟨hi, lo⟩)
    | _, _ => some (.error .invalidDigit)

/-- The loop of `from_binary_digits`. -/
def binaryLoop : U256 → List Char → Parsed
  | result, [] => some (.ok result)
  | result, ch :: cs =>
    match ch with
    | '0' => binaryLoop (u256Shl result 1) cs
    | '1' => ((u256Shl result 1).add U256.one).bind fun sum => binaryLoop sum cs
    | _ => some (.error .invalidDigit)

/-- `s.strip_prefix("0b")`, or `s` where there is no such prefix. -/
def binaryBody : List Char → List Char
  | '0' :: 'b' :: rest => rest
  | s => s

/-- `U256::from_binary_digits`. -/
def fromBinaryDigits (s : List Char) : Parsed :=
  let body := withoutUnderscores (binaryBody s)
  if body.isEmpty then some (.error .empty)
  else if 256 < byteLen body then some (.error .tooManyDigits)
  else binaryLoop U256.zero body

/-! ### Digits -/

/-- Characters that are digits, at least one, with their number. -/
def Denotes (base : Nat) (cs : List Char) (n : Nat) : Prop :=
  cs ≠ [] ∧ ∃ ds, digitsIn base cs = some ds ∧ valueOf base ds = n

theorem digitsIn_cons_iff {base : Nat} {c : Char} {cs : List Char} {ds : List Nat} :
    digitsIn base (c :: cs) = some ds ↔
      ∃ d ds', digitIn base c = some d ∧ digitsIn base cs = some ds' ∧ ds = d :: ds' := by
  simp only [digitsIn, Option.bind_eq_some_iff, Option.map_eq_some_iff]
  constructor
  · rintro ⟨d, hd, ds', hds', rfl⟩
    exact ⟨d, ds', hd, hds', rfl⟩
  · rintro ⟨d, ds', hd, hds', rfl⟩
    exact ⟨d, hd, ds', hds', rfl⟩

theorem digitsIn_cons_none {base : Nat} {c : Char} (cs : List Char) (h : digitIn base c = none) :
    digitsIn base (c :: cs) = none := by
  rw [digitsIn, h]
  rfl

theorem digitsIn_length {base : Nat} {cs : List Char} {ds : List Nat}
    (h : digitsIn base cs = some ds) : ds.length = cs.length := by
  induction cs generalizing ds with
  | nil =>
    cases h
    rfl
  | cons c cs ih =>
    obtain ⟨d, ds', -, hds', rfl⟩ := digitsIn_cons_iff.mp h
    rw [List.length_cons, List.length_cons, ih hds']

/-- The ranges of the characters that are digits. -/
theorem charDigit_cases {c : Char} {d : Nat} (h : charDigit c = some d) :
    (48 ≤ c.toNat ∧ c.toNat ≤ 57 ∧ d = c.toNat - 48) ∨
      (97 ≤ c.toNat ∧ c.toNat ≤ 122 ∧ d = c.toNat - 87) ∨
        65 ≤ c.toNat ∧ c.toNat ≤ 90 ∧ d = c.toNat - 55 := by
  simp only [charDigit, Char.le_def, UInt32.le_iff_toNat_le] at h
  split at h
  · next hc =>
    left
    exact ⟨hc.1, hc.2, (Option.some.inj h).symm⟩
  · split at h
    · next hc =>
      right
      left
      exact ⟨hc.1, hc.2, (Option.some.inj h).symm⟩
    · split at h
      · next hc =>
        right
        right
        exact ⟨hc.1, hc.2, (Option.some.inj h).symm⟩
      · cases h

theorem charDigit_of_digitIn {base d : Nat} {c : Char} (h : digitIn base c = some d) :
    charDigit c = some d := by
  rw [digitIn, Option.filter_eq_some_iff] at h
  exact h.1

/-- Digits are ASCII characters. -/
theorem utf8Size_of_digit {base d : Nat} {c : Char} (h : digitIn base c = some d) :
    c.utf8Size = 1 := by
  have hascii : c.toNat ≤ 127 := by
    rcases charDigit_cases (charDigit_of_digitIn h) with hc | hc | hc
    · omega
    · omega
    · omega
  rw [Char.utf8Size_eq_one_iff, UInt32.le_iff_toNat_le]
  exact hascii

theorem isSome_of_digitsIn {base : Nat} {cs : List Char} {ds : List Nat}
    (h : digitsIn base cs = some ds) : ∀ c ∈ cs, (digitIn base c).isSome = true := by
  induction cs generalizing ds with
  | nil => exact fun c hc => absurd hc List.not_mem_nil
  | cons c cs ih =>
    obtain ⟨d, ds', hd, hds', rfl⟩ := digitsIn_cons_iff.mp h
    refine List.forall_mem_cons.mpr ⟨?_, ih hds'⟩
    rw [hd]
    rfl

theorem byteLen_of_digits {base : Nat} {cs : List Char} {ds : List Nat}
    (h : digitsIn base cs = some ds) : byteLen cs = cs.length := by
  apply byteLen_of_ascii
  intro c hc
  obtain ⟨d, hd⟩ := Option.isSome_iff_exists.mp (isSome_of_digitsIn h c hc)
  exact utf8Size_of_digit hd

/-- What a reader says of a text with the given digits: exactly their number. -/
def Reads (parsed : Parsed) (denotes : Nat → Prop) : Prop :=
  ∃ r, parsed = some r ∧ ∀ v : U256, r = .ok v ↔ denotes v.toNat

theorem reads_error {denotes : Nat → Prop} (e : U256ParseError)
    (h : ∀ v : U256, ¬ denotes v.toNat) : Reads (some (.error e)) denotes := by
  refine ⟨_, rfl, fun v => ⟨fun hok => ?_, fun hv => absurd hv (h v)⟩⟩
  cases hok

theorem reads_ok {denotes : Nat → Prop} (u : U256) (h : ∀ n, denotes n ↔ n = u.toNat) :
    Reads (some (.ok u)) denotes := by
  refine ⟨_, rfl, fun v => ?_⟩
  rw [h, Except.ok.injEq]
  constructor
  · rintro rfl
    rfl
  · intro hv
    exact (U256.toNat_injective hv).symm

theorem Reads.congr {parsed : Parsed} {denotes denotes' : Nat → Prop} (h : Reads parsed denotes)
    (heq : ∀ n, denotes' n ↔ denotes n) : Reads parsed denotes' := by
  obtain ⟨r, hr, hspec⟩ := h
  exact ⟨r, hr, fun v => (hspec v).trans (heq v.toNat).symm⟩

/-- The number of the digits after those that have been read. -/
def Continues (base acc : Nat) (cs : List Char) (n : Nat) : Prop :=
  ∃ ds, digitsIn base cs = some ds ∧ horner base acc ds = n

theorem continues_nil (base acc n : Nat) : Continues base acc [] n ↔ n = acc := by
  constructor
  · rintro ⟨ds, hds, rfl⟩
    cases hds
    rfl
  · rintro rfl
    exact ⟨[], rfl, rfl⟩

theorem continues_cons {base d : Nat} {c : Char} (acc : Nat) (cs : List Char) (n : Nat)
    (h : digitIn base c = some d) :
    Continues base acc (c :: cs) n ↔ Continues base (acc * base + d) cs n := by
  constructor
  · rintro ⟨ds, hds, rfl⟩
    obtain ⟨d', ds', hd', hds', rfl⟩ := digitsIn_cons_iff.mp hds
    rw [h, Option.some.injEq] at hd'
    exact ⟨ds', hds', by rw [hd', horner_cons]⟩
  · rintro ⟨ds, hds, rfl⟩
    exact ⟨d :: ds, digitsIn_cons_iff.mpr ⟨d, ds, h, hds, rfl⟩, horner_cons ..⟩

theorem not_continues_cons {base : Nat} {c : Char} (acc : Nat) (cs : List Char) (n : Nat)
    (h : digitIn base c = none) : ¬ Continues base acc (c :: cs) n := by
  rintro ⟨ds, hds, -⟩
  rw [digitsIn_cons_none cs h] at hds
  cases hds

theorem denotes_iff {base : Nat} {cs : List Char} (h : cs ≠ []) (n : Nat) :
    Denotes base cs n ↔ Continues base 0 cs n :=
  and_iff_right h

/-! ### Decimal digits -/

theorem toNat_digit {d : Nat} (h : d < 10) :
    (U256.fromU128 (BitVec.ofNat 128 d)).toNat = d := by
  rw [U256.fromU128, U256.toNat, BitVec.toNat_ofNat, Nat.mod_eq_of_lt (by omega)]
  exact (congrArg (· + d) (Nat.zero_mul _)).trans (Nat.zero_add d)

/-- **The test for an overflow is exact**: the quotient and the remainder of the largest
    number say whether the next one fits. -/
theorem overflows_iff {q : U256} (result : U256) {maxRemainder d : Nat} (hd : d < 10)
    (hq : q.toNat = (2 ^ 256 - 1) / 10) (hr : maxRemainder = (2 ^ 256 - 1) % 10) :
    (q.blt result || (result == q && decide (maxRemainder < d))) = true ↔
      2 ^ 256 ≤ result.toNat * 10 + d := by
  have heq : (result == q) = true ↔ result.toNat = q.toNat := by
    rw [beq_iff_eq]
    exact ⟨fun h => h ▸ rfl, fun h => U256.toNat_injective h⟩
  rw [Bool.or_eq_true, Bool.and_eq_true, heq, U256.blt_eq, decide_eq_true_eq, decide_eq_true_eq,
    hq, hr]
  omega

theorem decimalLoop_reads {q : U256} {maxRemainder : Nat} (hq : q.toNat = (2 ^ 256 - 1) / 10)
    (hr : maxRemainder = (2 ^ 256 - 1) % 10) (cs : List Char) (result : U256) :
    Reads (decimalLoop q maxRemainder result cs) (Continues 10 result.toNat cs) := by
  induction cs generalizing result with
  | nil => exact reads_ok result fun n => continues_nil 10 _ n
  | cons c cs ih =>
    rw [decimalLoop]
    cases hdigit : digitIn 10 c with
    | none => exact reads_error _ fun v => not_continues_cons _ cs _ hdigit
    | some d =>
      have hd := digitIn_lt hdigit
      have htest := overflows_iff result hd hq hr
      simp only
      split
      · next hover =>
        -- the digits that follow can only make the number larger
        refine reads_error _ fun v hv => ?_
        obtain ⟨ds, -, hvalue⟩ := (continues_cons _ cs _ hdigit).mp hv
        have hle := le_horner (b := 10) (by decide) (result.toNat * 10 + d) ds
        have hbig := htest.mp hover
        have hlt := v.toNat_lt
        omega
      · next hfits =>
        have hlt : result.toNat * 10 + d < 2 ^ 256 := by
          rw [htest] at hfits
          omega
        obtain ⟨product, hproduct, hproductNat⟩ :=
          U256.exists_checked (n := result.toNat * 10) (by omega)
        obtain ⟨sum, hsum, hsumNat⟩ := U256.exists_checked hlt
        rw [U256.mul_eq, toNat_ten, hproduct, Option.bind_some, U256.add_eq, hproductNat,
          toNat_digit hd, hsum, Option.bind_some]
        have hrest := ih sum
        rw [hsumNat] at hrest
        exact hrest.congr fun n => continues_cons _ cs n hdigit

/-- **Decimal literals**: a text is read exactly when it is digits that denote a number of
    256 bits. -/
theorem fromDecimalStr_reads (s : List Char) :
    Reads (fromDecimalStr s) (Denotes 10 (withoutUnderscores s)) := by
  obtain ⟨q, hq, hqNat⟩ := U256.div_eq (a := U256.max) (b := U256.fromU128 10) (by decide)
  obtain ⟨r, hr, hrNat⟩ := U256.rem_eq (a := U256.max) (b := U256.fromU128 10) (by decide)
  rw [fromDecimalStr]
  split
  · next hempty => exact reads_error _ fun v hv => hv.1 (List.isEmpty_iff.mp hempty)
  · next hne =>
    rw [List.isEmpty_iff] at hne
    have hrem : r.lo.toNat % 2 ^ 32 = (2 ^ 256 - 1) % 10 := by
      have hrNat' : r.toNat = 5 := hrNat
      have hlo : r.lo.toNat = 5 := by
        rw [U256.toNat] at hrNat'
        omega
      rw [hlo]
      rfl
    rw [hq, Option.bind_some, hr, Option.bind_some]
    exact (decimalLoop_reads hqNat hrem _ U256.zero).congr (denotes_iff hne)

/-! ### Hexadecimal digits -/

theorem valueOf_lt {base : Nat} {cs : List Char} {ds : List Nat} (hbase : 1 < base)
    (h : digitsIn base cs = some ds) : valueOf base ds < base ^ cs.length := by
  rw [valueOf_eq, ← digitsIn_length h, ← List.length_reverse]
  exact Nat.ofDigits_lt_base_pow_length hbase fun d hd =>
    digitsIn_lt h d (List.mem_reverse.mp hd)

theorem digitsIn_append {base : Nat} {cs cs' : List Char} {ds ds' : List Nat}
    (h : digitsIn base cs = some ds) (h' : digitsIn base cs' = some ds') :
    digitsIn base (cs ++ cs') = some (ds ++ ds') := by
  induction cs generalizing ds with
  | nil =>
    cases h
    exact h'
  | cons c cs ih =>
    obtain ⟨d, rest, hd, hrest, rfl⟩ := digitsIn_cons_iff.mp h
    exact digitsIn_cons_iff.mpr ⟨d, rest ++ ds', hd, ih hrest, rfl⟩

theorem exists_digitsIn {base : Nat} {cs : List Char}
    (h : ∀ c ∈ cs, (digitIn base c).isSome = true) : ∃ ds, digitsIn base cs = some ds := by
  induction cs with
  | nil => exact ⟨[], rfl⟩
  | cons c cs ih =>
    obtain ⟨d, hd⟩ := Option.isSome_iff_exists.mp (h c (List.mem_cons_self ..))
    obtain ⟨ds, hds⟩ := ih fun c' hc' => h c' (List.mem_cons_of_mem c hc')
    exact ⟨d :: ds, digitsIn_cons_iff.mpr ⟨d, ds, hd, hds, rfl⟩⟩

/-- Half a word of 32 digits. -/
theorem hexWord_eq {cs : List Char} {ds : List Nat} (h : digitsIn 16 cs = some ds)
    (hlen : cs.length = 32) : ∃ w, hexWord cs = some w ∧ w.toNat = valueOf 16 ds := by
  refine ⟨BitVec.ofNat 128 (valueOf 16 ds), by rw [hexWord, h]; rfl, ?_⟩
  rw [BitVec.toNat_ofNat]
  have hlt := valueOf_lt (by decide) h
  rw [hlen] at hlt
  exact Nat.mod_eq_of_lt (hlt.trans_eq (by decide))

/-- The two halves of 64 digits. -/
theorem hexWords_eq {cs : List Char} {ds : List Nat} (h : digitsIn 16 cs = some ds)
    (hlen : cs.length = 64) :
    ∃ hi lo, hexWord (cs.take 32) = some hi ∧ hexWord (cs.drop 32) = some lo ∧
      (U256.mk hi lo).toNat = valueOf 16 ds := by
  have hsome := isSome_of_digitsIn h
  obtain ⟨hs, hhs⟩ : ∃ hs, digitsIn 16 (cs.take 32) = some hs :=
    exists_digitsIn fun c hc => hsome c (List.mem_of_mem_take hc)
  obtain ⟨ls, hls⟩ : ∃ ls, digitsIn 16 (cs.drop 32) = some ls :=
    exists_digitsIn fun c hc => hsome c (List.mem_of_mem_drop hc)
  have hwhole := digitsIn_append hhs hls
  rw [List.take_append_drop, h, Option.some.injEq] at hwhole
  have hlsLen := digitsIn_length hls
  rw [List.length_drop, hlen] at hlsLen
  obtain ⟨hi, hhi, hhiNat⟩ := hexWord_eq hhs (by rw [List.length_take, hlen]; rfl)
  obtain ⟨lo, hlo, hloNat⟩ := hexWord_eq hls (by rw [List.length_drop, hlen])
  refine ⟨hi, lo, hhi, hlo, ?_⟩
  have hpower : 16 ^ 32 = 2 ^ 128 := by norm_num
  rw [U256.toNat, hhiNat, hloNat, hwhole, valueOf_eq 16 ls, valueOf, valueOf, horner_append,
    horner_eq 16 (horner 16 0 hs), hlsLen, hpower]

theorem digitsIn_zeros (k : Nat) :
    digitsIn 16 (List.replicate k '0') = some (List.replicate k 0) := by
  induction k with
  | zero => rfl
  | succ k ih => exact digitsIn_cons_iff.mpr ⟨0, List.replicate k 0, rfl, ih, rfl⟩

/-- The two halves of digits padded to 64. -/
theorem hexWords_leftpad {cs : List Char} {ds : List Nat} (h : digitsIn 16 cs = some ds)
    (hlen : cs.length ≤ 64) :
    ∃ hi lo, hexWord ((cs.leftpad 64 '0').take 32) = some hi ∧
      hexWord ((cs.leftpad 64 '0').drop 32) = some lo ∧
        (U256.mk hi lo).toNat = valueOf 16 ds := by
  have hpadded : digitsIn 16 (cs.leftpad 64 '0') =
      some (List.replicate (64 - cs.length) 0 ++ ds) :=
    digitsIn_append (digitsIn_zeros _) h
  have hpaddedLen : (cs.leftpad 64 '0').length = 64 := by
    rw [List.leftpad, List.length_append, List.length_replicate]
    omega
  obtain ⟨hi, lo, hhi, hlo, hvalue⟩ := hexWords_eq hpadded hpaddedLen
  rw [valueOf, horner_zeros] at hvalue
  exact ⟨hi, lo, hhi, hlo, hvalue⟩

/-- **Hexadecimal literals**: a text is read exactly when it is 1 to 64 digits, as their
    number. -/
theorem fromHexDigits_reads (s : List Char) :
    Reads (fromHexDigits s) fun n =>
      Denotes 16 (withoutUnderscores s) n ∧ (withoutUnderscores s).length ≤ 64 := by
  rw [fromHexDigits]
  generalize withoutUnderscores s = cs
  simp only
  split
  · next hempty => exact reads_error _ fun v hv => hv.1.1 (List.isEmpty_iff.mp hempty)
  · next hne =>
    rw [List.isEmpty_iff] at hne
    split
    · next hlong =>
      -- digits are ASCII, so that many bytes are that many characters
      refine reads_error _ fun v hv => ?_
      obtain ⟨⟨-, ds, hds, -⟩, hlen⟩ := hv
      rw [byteLen_of_digits hds] at hlong
      omega
    · next hshort =>
      have hlen : cs.length ≤ 64 := by
        have hle := length_le_byteLen cs
        omega
      split
      · next hdigits =>
        refine reads_error _ fun v hv => ?_
        obtain ⟨⟨-, ds, hds, -⟩, -⟩ := hv
        rw [List.all_eq_true.mpr (isSome_of_digitsIn hds)] at hdigits
        cases hdigits
      · next hdigits =>
        rw [Bool.not_eq_true, Bool.not_eq_false', List.all_eq_true] at hdigits
        obtain ⟨ds, hds⟩ := exists_digitsIn hdigits
        obtain ⟨hi, lo, hhi, hlo, hvalue⟩ := hexWords_leftpad hds hlen
        rw [hhi, hlo]
        refine reads_ok ⟨hi, lo⟩ fun n => ?_
        rw [hvalue]
        constructor
        · rintro ⟨⟨-, ds', hds', rfl⟩, -⟩
          rw [hds, Option.some.injEq] at hds'
          rw [hds']
        · rintro rfl
          exact ⟨⟨hne, ds, hds, rfl⟩, hlen⟩

/-! ### Binary digits -/

theorem digitIn_two_none {c : Char} (hzero : c ≠ '0') (hone : c ≠ '1') : digitIn 2 c = none := by
  cases hdigit : digitIn 2 c with
  | none => rfl
  | some d =>
    have hd := digitIn_lt hdigit
    have hzero' : c.toNat ≠ 48 := fun h => hzero (Char.toNat_inj.mp h)
    have hone' : c.toNat ≠ 49 := fun h => hone (Char.toNat_inj.mp h)
    rcases charDigit_cases (charDigit_of_digitIn hdigit) with hc | hc | hc
    · omega
    · omega
    · omega

/-- Doubling keeps the digits that are left within the word. -/
theorem shl_one_toNat {result : U256} {k : Nat}
    (hfit : (result.toNat + 1) * 2 ^ (k + 1) ≤ 2 ^ 256) :
    (u256Shl result 1).toNat = result.toNat * 2 ∧ result.toNat * 2 + 1 < 2 ^ 256 ∧
      (result.toNat * 2 + 2) * 2 ^ k ≤ 2 ^ 256 := by
  have hpow := Nat.one_le_two_pow (n := k)
  have hstep : (result.toNat * 2 + 2) * 2 ^ k = (result.toNat + 1) * 2 ^ (k + 1) := by ring
  have hle : result.toNat * 2 + 2 ≤ (result.toNat * 2 + 2) * 2 ^ k :=
    Nat.le_mul_of_pos_right _ hpow
  refine ⟨?_, by omega, by omega⟩
  rw [u256Shl_toNat, Nat.pow_one, Nat.mod_eq_of_lt (by omega)]

theorem binaryLoop_reads (cs : List Char) (result : U256)
    (hfit : (result.toNat + 1) * 2 ^ cs.length ≤ 2 ^ 256) :
    Reads (binaryLoop result cs) (Continues 2 result.toNat cs) := by
  induction cs generalizing result with
  | nil => exact reads_ok result fun n => continues_nil 2 _ n
  | cons c cs ih =>
    obtain ⟨hshl, hlt, hnext⟩ := shl_one_toNat hfit
    rw [binaryLoop.eq_def]
    simp only
    split
    · have hrest := ih (u256Shl result 1) (by
        rw [hshl]
        exact (Nat.mul_le_mul_right _ (by omega)).trans hnext)
      rw [hshl, ← Nat.add_zero (result.toNat * 2)] at hrest
      exact hrest.congr fun n => continues_cons _ cs n rfl
    · obtain ⟨sum, hsum, hsumNat⟩ := U256.exists_checked hlt
      have hone : U256.one.toNat = 1 := rfl
      rw [U256.add_eq, hshl, hone, hsum, Option.bind_some]
      have hrest := ih sum (by rwa [hsumNat])
      rw [hsumNat] at hrest
      exact hrest.congr fun n => continues_cons _ cs n rfl
    · next hzero hone =>
      refine reads_error _ fun v => not_continues_cons _ cs _ (digitIn_two_none ?_ ?_)
      · exact fun h => hzero h
      · exact fun h => hone h

/-- **Binary literals**: a text is read exactly when it is 1 to 256 digits, after a prefix if
    there is one, as their number. -/
theorem fromBinaryDigits_reads (s : List Char) :
    Reads (fromBinaryDigits s) fun n =>
      Denotes 2 (withoutUnderscores (binaryBody s)) n ∧
        (withoutUnderscores (binaryBody s)).length ≤ 256 := by
  rw [fromBinaryDigits]
  generalize withoutUnderscores (binaryBody s) = cs
  split
  · next hempty => exact reads_error _ fun v hv => hv.1.1 (List.isEmpty_iff.mp hempty)
  · next hne =>
    rw [List.isEmpty_iff] at hne
    split
    · next hlong =>
      refine reads_error _ fun v hv => ?_
      obtain ⟨⟨-, ds, hds, -⟩, hlen⟩ := hv
      rw [byteLen_of_digits hds] at hlong
      omega
    · next hshort =>
      have hlen : cs.length ≤ 256 := by
        have hle := length_le_byteLen cs
        omega
      have hfit : (U256.zero.toNat + 1) * 2 ^ cs.length ≤ 2 ^ 256 :=
        (Nat.one_mul _).trans_le (Nat.pow_le_pow_right (by decide) hlen)
      refine (binaryLoop_reads cs U256.zero hfit).congr fun n => ?_
      rw [denotes_iff hne, and_iff_left hlen]
      rfl

/-! ### What is written -/

theorem toNat_of_hi_zero {v : U256} (h : v.hi = 0) : v.toNat = v.lo.toNat := by
  rw [U256.toNat, h]
  exact (congrArg (· + v.lo.toNat) (Nat.zero_mul _)).trans (Nat.zero_add _)

theorem lo_toNat_of_lt {v : U256} (h : v.toNat < 2 ^ 128) : v.lo.toNat = v.toNat := by
  rw [U256.toNat] at h ⊢
  omega

/-- Division by ten takes the digits off a number, the last one first. -/
theorem displayLoop_eq (fuel : Nat) : ∀ n : U256, n.toNat < 10 ^ fuel → n.toNat ≠ 0 →
    ∃ text, displayLoop (fuel + 1) n = some text ∧ text.reverse = Nat.toDigits 10 n.toNat := by
  induction fuel with
  | zero => exact fun n hlt hne => absurd hlt (by omega)
  | succ fuel ih =>
    intro n hlt hne
    obtain ⟨q, r, hdivRem, hq, hr⟩ := u256DivRem_eq (n := n) (d := U256.fromU128 10) (by decide)
    rw [toNat_ten] at hq hr
    have hr10 : r.toNat < 10 := hr ▸ Nat.mod_lt _ (by decide)
    have hdigit : r.lo.toNat = n.toNat % 10 := (lo_toNat_of_lt (by omega)).trans hr
    rw [displayLoop, if_neg (by simpa [U256.isZero_iff] using hne), hdivRem, Option.bind_some]
    simp only [hdigit]
    by_cases hlast : q.toNat = 0
    · have hzero : q.isZero = true := by
        rw [U256.isZero_iff]
        exact hlast
      refine ⟨_, by rw [displayLoop, if_pos hzero, Option.map_some], ?_⟩
      have hsmall : n.toNat < 10 := by omega
      rw [Nat.mod_eq_of_lt hsmall, Nat.toDigits_of_lt_base hsmall]
      rfl
    · obtain ⟨text, htext, hreverse⟩ := ih q (by rw [Nat.pow_succ] at hlt; omega) hlast
      refine ⟨_, by rw [htext, Option.map_some], ?_⟩
      rw [List.reverse_cons, hreverse, hq]
      exact (Nat.toDigits_of_base_le (by decide) (by omega)).symm

/-- **A number is written in its decimal digits**, on both sides of 128 bits. -/
theorem toDisplayDecimal_eq (v : U256) : toDisplayDecimal v = some (Nat.toDigits 10 v.toNat) := by
  rw [toDisplayDecimal]
  split
  · next h => rw [toNat_of_hi_zero h]
  · next h =>
    have hlt : v.toNat < 10 ^ 255 := v.toNat_lt.trans (by norm_num)
    have hne : v.toNat ≠ 0 := by
      intro hzero
      rw [U256.toNat] at hzero
      exact h (BitVec.eq_of_toNat_eq (by simpa using Nat.eq_zero_of_add_eq_zero_right hzero))
    obtain ⟨text, htext, hreverse⟩ := displayLoop_eq 255 v hlt hne
    rw [htext, Option.map_some, hreverse]

theorem digitChar_ne_zero {d : Nat} (hlt : d < 10) (h : d ≠ 0) : Nat.digitChar d ≠ '0' := by
  revert d
  decide

/-- The digits of a number start with a zero for zero only. -/
theorem head_toDigits {n : Nat} (h : n ≠ 0) : (Nat.toDigits 10 n).head? ≠ some '0' := by
  induction n using Nat.strong_induction_on with
  | _ n ih =>
    by_cases hn : n < 10
    · rw [Nat.toDigits_of_lt_base hn, List.head?_cons, ne_eq, Option.some.injEq]
      exact digitChar_ne_zero hn h
    · have hhead := ih (n / 10) (by omega) (by omega)
      rw [Nat.toDigits_of_base_le (by decide) (by omega)]
      cases hdigits : Nat.toDigits 10 (n / 10) with
      | nil => exact absurd hdigits Nat.toDigits_ne_nil
      | cons c cs =>
        rw [hdigits] at hhead
        exact hhead

theorem denotes_toDigits (n : Nat) : Denotes 10 (withoutUnderscores (Nat.toDigits 10 n)) n := by
  obtain ⟨ds, hne, hlt, htext, hvalue⟩ := exists_toDigits (b := 10) (by decide) n
  rw [withoutUnderscores, htext, filter_digitChars (by decide) hlt]
  refine ⟨by simpa using hne, ds, ?_, hvalue⟩
  clear htext hvalue hne
  induction ds with
  | nil => rfl
  | cons d ds ih =>
    exact digitsIn_cons_iff.mpr ⟨d, ds, digitIn_ten_digitChar (hlt d (List.mem_cons_self ..)),
      ih fun d' hd' => hlt d' (List.mem_cons_of_mem d hd'), rfl⟩

/-! ### The readers without errors -/

/-- What is left of a result without its errors. -/
def Parsed.value (parsed : Parsed) : Option U256 := parsed.bind Except.toOption

theorem fromHexDigits_value (s : List Char) :
    Syntax.fromHexDigits s = (fromHexDigits s).value := by
  rw [Syntax.fromHexDigits, fromHexDigits, withoutUnderscores]
  generalize s.filter (· ≠ '_') = cs
  cases hempty : cs.isEmpty with
  | true => simp only [Bool.true_or, if_true]; rfl
  | false =>
    cases hdigits : cs.all fun c => (digitIn 16 c).isSome with
    | false =>
      have hnew : Parsed.value (if 64 < byteLen cs then some (.error .tooManyDigits)
          else some (.error .invalidDigit)) = none := by
        split <;> rfl
      simp only [Bool.false_eq_true, Bool.not_false, if_false, if_true, hnew]
      split <;> rfl
    | true =>
      obtain ⟨ds, hds⟩ := exists_digitsIn (List.all_eq_true.mp hdigits)
      simp only [byteLen_of_digits hds, Bool.false_or, decide_eq_true_eq]
      split
      · rfl
      · cases hexWord ((cs.leftpad 64 '0').take 32) with
        | none => rfl
        | some hi =>
          cases hexWord ((cs.leftpad 64 '0').drop 32) with
          | none => rfl
          | some lo => rfl

/-! ### The codecs -/

theorem fromDecimalStr_display (v : U256) :
    fromDecimalStr (Nat.toDigits 10 v.toNat) = some (.ok v) := by
  obtain ⟨r, hr, hspec⟩ := fromDecimalStr_reads (Nat.toDigits 10 v.toNat)
  rw [hr, (hspec v).mpr (denotes_toDigits v.toNat)]

theorem fromHexDigits_written (v : U256) : fromHexDigits (u256HexDigits v) = some (.ok v) := by
  have hread := fromHexDigits_u256HexDigits v
  obtain ⟨r, hr, -⟩ := fromHexDigits_reads (u256HexDigits v)
  rw [fromHexDigits_value, hr] at hread
  rw [hr]
  cases r with
  | error e => cases hread
  | ok w =>
    have hwv : w = v := Option.some.inj hread
    rw [hwv]

/-- **The codecs of literals agree**: no reader panics; each reads exactly the digits of a
    number that fits, up to 64 of them in hexadecimal and 256 in binary, where a prefix may
    stand first; and what is written for a number is read as that number, with no leading
    zero in decimal but for zero. -/
theorem literal_codecs :
    (∀ s, Reads (fromDecimalStr s) (Denotes 10 (withoutUnderscores s))) ∧
    (∀ v, ∃ text, toDisplayDecimal v = some text ∧ fromDecimalStr text = some (.ok v) ∧
      (text.head? = some '0' → text = ['0'])) ∧
    (∀ v, fromHexDigits (u256HexDigits v) = some (.ok v)) ∧
    (∀ s, Reads (fromHexDigits s) fun n =>
      Denotes 16 (withoutUnderscores s) n ∧ (withoutUnderscores s).length ≤ 64) ∧
    ∀ s, Reads (fromBinaryDigits s) fun n =>
      Denotes 2 (withoutUnderscores (binaryBody s)) n ∧
        (withoutUnderscores (binaryBody s)).length ≤ 256 := by
  refine ⟨fromDecimalStr_reads, fun v => ?_, fromHexDigits_written, fromHexDigits_reads,
    fromBinaryDigits_reads⟩
  refine ⟨_, toDisplayDecimal_eq v, fromDecimalStr_display v, fun hhead => ?_⟩
  by_cases hzero : v.toNat = 0
  · rw [hzero]
    rfl
  · exact absurd hhead (head_toDigits hzero)

/-- With the prefix a text is read that is no binary digits. -/
theorem binary_prefix_is_read :
    fromBinaryDigits ['0', 'b', '1'] = some (.ok U256.one) ∧
      ¬ ∃ n, Denotes 2 (withoutUnderscores ['0', 'b', '1']) n := by
  constructor
  · rfl
  · rintro ⟨n, -, ds, hds, -⟩
    cases hds

end CambrianLang.Syntax.Codec
