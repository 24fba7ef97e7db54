import GoQuickjs.Strings
import GoQuickjs.Texts

/-!
# Texts on their way between Go and the engine

`JS_NewStringLen` decodes the bytes of a Go string, `JS_ToCStringLen2` encodes the
units of an engine string. Decoding undoes encoding: every engine string, with
unmatched surrogates and zero units, comes back from Go unit by unit. The other way
round only the texts survive that the encoding can produce: UTF-8, extended to single
surrogates, without a high surrogate right before a low one. All UTF-8 is of this
form. Whatever else a Go string holds is replaced on the way, once and for all.
-/

namespace GoQuickjs

open Wtf8

/-! ## Decoding one code point -/

/-- The bits of one more byte of a sequence. -/
theorem code_push (code : Nat) (b : UInt8) :
    code <<< 6 ||| (b &&& 0x3f).toNat = 64 * code + b.toNat % 64 := by
  have bits : (b &&& 0x3f).toNat = b.toNat % 64 := by
    rw [UInt8.toNat_and]
    exact Nat.and_two_pow_sub_one_eq_mod b.toNat 6
  rw [bits, ← Nat.shiftLeft_add_eq_or_of_lt (Nat.mod_lt _ (by decide)), Nat.shiftLeft_eq]
  omega

/-- A byte of six low bits over 128 goes on a sequence. -/
theorem isContinuation_of_toNat {b : UInt8} {x : Nat} (value : b.toNat = 0x80 + x % 64) :
    isContinuation b = true := by
  rw [isContinuation, Bool.and_eq_true, decide_eq_true_iff, decide_eq_true_iff,
    UInt8.le_iff_toNat_le, UInt8.lt_iff_toNat_lt, value]
  exact ⟨Nat.le_add_right .., by change _ < 192; omega⟩

/-- A sequence that is well formed is decoded. -/
theorem unicodeFromUtf8_sequence (tail : List UInt8) {c : UInt8} {rest : List UInt8}
    (first : tailLength c = some tail.length) (large : ¬ c < 0x80)
    (continues : tail.all isContinuation = true) {code : Nat}
    (value : tail.foldl (fun code b => code <<< 6 ||| (b &&& 0x3f).toNat)
      (c &&& (firstCode tail.length).1).toNat = code)
    (shortest : ¬ code < (firstCode tail.length).2) :
    unicodeFromUtf8 (c :: (tail ++ rest)) = some (code, rest) := by
  have whole : ¬ ((tail ++ rest).length < tail.length ∨
      !((tail ++ rest).take tail.length).all isContinuation) := by
    simp [continues]
  rw [unicodeFromUtf8, if_neg large, first, Option.bind_some, if_neg whole]
  simp only [List.take_left, List.drop_left, value]
  exact if_neg shortest

/-- The first bytes of sequences, by their number. -/
theorem first_two {c : UInt8} (low : 0xc0 ≤ c.toNat) (high : c.toNat < 0xe0) :
    tailLength c = some 1 ∧ (c &&& 0x1f).toNat = c.toNat - 0xc0 := by
  have bits : (c &&& 0x1f).toNat = c.toNat % 32 := by
    rw [UInt8.toNat_and]
    exact Nat.and_two_pow_sub_one_eq_mod c.toNat 5
  refine ⟨?_, by omega⟩
  simp only [tailLength, UInt8.lt_iff_toNat_lt]
  exact (if_neg (Nat.not_lt.mpr low)).trans (if_pos high)

/-- The first byte of a sequence of three announces two more and holds four bits. -/
theorem first_three {c : UInt8} (low : 0xe0 ≤ c.toNat) (high : c.toNat < 0xf0) :
    tailLength c = some 2 ∧ (c &&& 0xf).toNat = c.toNat - 0xe0 := by
  have bits : (c &&& 0xf).toNat = c.toNat % 16 := by
    rw [UInt8.toNat_and]
    exact Nat.and_two_pow_sub_one_eq_mod c.toNat 4
  have notTwo : ¬ c.toNat < 0xc0 := by omega
  refine ⟨?_, by omega⟩
  simp only [tailLength, UInt8.lt_iff_toNat_lt]
  exact (if_neg notTwo).trans ((if_neg (Nat.not_lt.mpr low)).trans (if_pos high))

/-- The first byte of a sequence of four announces three more and holds three bits. -/
theorem first_four {c : UInt8} (low : 0xf0 ≤ c.toNat) (high : c.toNat < 0xf8) :
    tailLength c = some 3 ∧ (c &&& 0x7).toNat = c.toNat - 0xf0 := by
  have bits : (c &&& 0x7).toNat = c.toNat % 8 := by
    rw [UInt8.toNat_and]
    exact Nat.and_two_pow_sub_one_eq_mod c.toNat 3
  have notTwo : ¬ c.toNat < 0xc0 := by omega
  have notThree : ¬ c.toNat < 0xe0 := by omega
  refine ⟨?_, by omega⟩
  simp only [tailLength, UInt8.lt_iff_toNat_lt]
  exact (if_neg notTwo).trans ((if_neg notThree).trans ((if_neg (Nat.not_lt.mpr low)).trans
    (if_pos high)))

/-- Bytes are compared as numbers. -/
theorem not_lt_of_toNat {c d : UInt8} (above : d.toNat ≤ c.toNat) : ¬ c < d := by
  rw [UInt8.lt_iff_toNat_lt]
  omega

/-- `unicode_from_utf8` gives back every code point that is not ASCII, surrogates included.

Proof: by the number of bytes. -/
theorem unicodeFromUtf8_utf8 {c : Nat} (large : 0x80 ≤ c) (valid : c < 0x110000)
    (rest : List UInt8) : unicodeFromUtf8 (utf8 c ++ rest) = some (c, rest) := by
  have bytes := utf8_eq valid
  rw [if_neg (by omega)] at bytes
  by_cases two : c < 0x800
  · rw [if_pos two] at bytes
    obtain ⟨a, tail, here, first, more⟩ := List.map_eq_cons_iff.mp bytes
    obtain ⟨b, tail, rfl, second, more⟩ := List.map_eq_cons_iff.mp more
    obtain rfl := List.map_eq_nil_iff.mp more
    obtain ⟨length, bits⟩ := first_two (c := a) (by omega) (by omega)
    rw [here]
    refine unicodeFromUtf8_sequence [b] length
      (not_lt_of_toNat (by change 128 ≤ _; omega)) ?_ ?_ ?_
    · simp [isContinuation_of_toNat second]
    · change (a &&& 0x1f).toNat <<< 6 ||| (b &&& 0x3f).toNat = c
      rw [code_push, bits]
      omega
    · change ¬ c < 0x80
      omega
  · rw [if_neg two] at bytes
    by_cases three : c < 0x10000
    · rw [if_pos three] at bytes
      obtain ⟨a, tail, here, first, more⟩ := List.map_eq_cons_iff.mp bytes
      obtain ⟨b, tail, rfl, second, more⟩ := List.map_eq_cons_iff.mp more
      obtain ⟨d, tail, rfl, third, more⟩ := List.map_eq_cons_iff.mp more
      obtain rfl := List.map_eq_nil_iff.mp more
      obtain ⟨length, bits⟩ := first_three (c := a) (by omega) (by omega)
      rw [here]
      refine unicodeFromUtf8_sequence [b, d] length
        (not_lt_of_toNat (by change 128 ≤ _; omega)) ?_ ?_ ?_
      · simp [isContinuation_of_toNat second, isContinuation_of_toNat third]
      · change ((a &&& 0xf).toNat <<< 6 ||| (b &&& 0x3f).toNat) <<< 6 ||| (d &&& 0x3f).toNat = c
        rw [code_push, code_push, bits]
        omega
      · change ¬ c < 0x800
        exact two
    · rw [if_neg three] at bytes
      obtain ⟨a, tail, here, first, more⟩ := List.map_eq_cons_iff.mp bytes
      obtain ⟨b, tail, rfl, second, more⟩ := List.map_eq_cons_iff.mp more
      obtain ⟨d, tail, rfl, third, more⟩ := List.map_eq_cons_iff.mp more
      obtain ⟨e, tail, rfl, fourth, more⟩ := List.map_eq_cons_iff.mp more
      obtain rfl := List.map_eq_nil_iff.mp more
      obtain ⟨length, bits⟩ := first_four (c := a) (by omega) (by omega)
      rw [here]
      refine unicodeFromUtf8_sequence [b, d, e] length
        (not_lt_of_toNat (by change 128 ≤ _; omega)) ?_ ?_ ?_
      · simp [isContinuation_of_toNat second, isContinuation_of_toNat third,
          isContinuation_of_toNat fourth]
      · change (((a &&& 0x7).toNat <<< 6 ||| (b &&& 0x3f).toNat) <<< 6 ||| (d &&& 0x3f).toNat) <<< 6
          ||| (e &&& 0x3f).toNat = c
        rw [code_push, code_push, code_push, bits]
        omega
      · change ¬ c < 0x10000
        exact three

/-! ## Decoding a text -/

/-- The loop of `JS_NewStringLen` on one code point. -/
theorem unitsOf_utf8 {c : Nat} (valid : c < 0x110000) (rest : List UInt8) :
    unitsOf (utf8 c ++ rest) = units c ++ unitsOf rest := by
  by_cases ascii : c < 0x80
  · have byte : utf8 c = [UInt8.ofNat c] := by rw [utf8, if_pos ascii]
    have value : (UInt8.ofNat c).toNat = c := by
      rw [UInt8.toNat_ofNat']
      omega
    have small : UInt8.ofNat c < 0x80 := by
      rw [UInt8.lt_iff_toNat_lt, value]
      exact ascii
    rw [byte, List.cons_append, List.nil_append, unitsOf, if_pos small, value, units,
      if_pos (by omega)]
    rfl
  · have decoded := unicodeFromUtf8_utf8 (Nat.not_lt.mp ascii) valid rest
    have bytes := utf8_eq valid
    rw [if_neg ascii] at bytes
    have leads : ∃ a tail, utf8 c = a :: tail ∧ ¬ a < 0x80 := by
      cases spelled : utf8 c with
      | nil =>
        rw [spelled] at bytes
        split at bytes <;> [skip; split at bytes] <;> simp at bytes
      | cons a tail =>
        refine ⟨a, tail, rfl, not_lt_of_toNat ?_⟩
        rw [spelled, List.map_cons] at bytes
        change 128 ≤ a.toNat
        split at bytes <;> [skip; split at bytes]
        all_goals
          have head := (List.cons.inj bytes).1
          omega
    obtain ⟨a, tail, spelled, large⟩ := leads
    rw [spelled, List.cons_append] at decoded ⊢
    rw [unitsOf, if_neg large]
    split
    · rename_i code next again
      obtain ⟨rfl, rfl⟩ := Prod.mk.inj (Option.some.inj (decoded.symm.trans again))
      rw [units]
      by_cases basic : c < 0x10000
      · rw [if_pos basic, if_pos basic]
        rfl
      · rw [if_neg basic, if_pos (by omega), if_neg basic]
        rfl
    · rename_i nothing
      rw [decoded] at nothing
      cases nothing

/-- The loop of `JS_NewStringLen` on a list of code points. -/
theorem unitsOf_flatMap {cs : List Nat} (valid : ∀ c ∈ cs, c < 0x110000) :
    unitsOf (cs.flatMap utf8) = cs.flatMap units := by
  induction cs with
  | nil => rw [List.flatMap_nil, List.flatMap_nil, unitsOf]
  | cons c cs inductionHypothesis =>
    rw [List.flatMap_cons, List.flatMap_cons, unitsOf_utf8 (valid c (by simp)),
      inductionHypothesis fun d later => valid d (by simp [later])]

/-- Decoding undoes encoding. -/
theorem unitsOf_encode (text : List UInt16) : unitsOf (encode text) = text.map UInt16.toNat := by
  rw [encode, unitsOf_flatMap (codePoints_lt text), units_codePoints]

/-! ## The texts that survive -/

/-- An engine string comes back from Go as it was, where neither direction runs into its limit:
the Go string is its text, the engine accepts it, and decodes the same units. -/
theorem engine_text_survives (s : JSString) (fits : ¬ s.TooLong) (short : s.text.length < 2 ^ 30) :
    s.goStringNCall.result = some s.text ∧
      newStringLen s.text (Int32.ofNat s.text.length) = .made ∧
      unitsOf s.text = s.units.map UInt16.toNat := by
  refine ⟨?_, (newStringLen_iff s.text).mpr (not_oversized short), unitsOf_encode s.units⟩
  rw [JSString.goStringNCall_result, JSString.toCStringLen_eq, if_neg fits]
  rfl

/-- The string with an unmatched surrogate. -/
def unmatched : JSString := ⟨[0xd800, 97], true, by simp, by simp⟩

theorem engine_text_survives_unmatched :
    unmatched.goStringNCall.result = some unmatched.text ∧
      newStringLen unmatched.text (Int32.ofNat unmatched.text.length) = .made ∧
      unitsOf unmatched.text = unmatched.units.map UInt16.toNat :=
  engine_text_survives unmatched (by decide) (by decide)

end GoQuickjs
