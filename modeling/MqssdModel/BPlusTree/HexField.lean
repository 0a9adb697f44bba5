import MqssdModel.BPlusTree.Boot

namespace MqssdModel.BPlusTree.HexField

open Boot

/-- Written from the value that is read, a digit comes back in upper case. -/
theorem digit_upper {c : Char} (h : isxdigit c = true) :
    0 ≤ hexValue c ∧ hexValue c < 16 ∧ hexDigits.getD (hexValue c).toNat '0' = c.toUpper := by
  have hall : ∀ n < 128, isxdigit (Char.ofNat n) = true → 0 ≤ hexValue (Char.ofNat n) ∧
      hexValue (Char.ofNat n) < 16 ∧
      hexDigits.getD (hexValue (Char.ofNat n)).toNat '0' = (Char.ofNat n).toUpper := by
    decide +kernel
  have hlt : c.toNat < 128 := by
    simp only [isxdigit, isdigit, Bool.or_eq_true, Bool.and_eq_true, decide_eq_true_eq] at h
    rcases h with (h | h) | h
    · exact lt_of_le_of_lt (show c.toNat ≤ 57 from h.2) (by norm_num)
    · exact lt_of_le_of_lt (show c.toNat ≤ 102 from h.2) (by norm_num)
    · exact lt_of_le_of_lt (show c.toNat ≤ 70 from h.2) (by norm_num)
  rw [← Char.ofNat_toNat c] at h ⊢
  exact hall _ hlt h

theorem foldl_bounds {cs : List Char} (h : ∀ c ∈ cs, isxdigit c = true) :
    0 ≤ cs.foldl hexStep 0 ∧ cs.foldl hexStep 0 < 16 ^ cs.length := by
  induction cs using List.reverseRecOn with
  | nil => simp
  | append_singleton cs c ih =>
    have hc : isxdigit c = true := h c (by simp)
    obtain ⟨h₀, hlt⟩ := ih fun d hd ↦ h d (List.mem_append_left _ hd)
    obtain ⟨hv₀, hv, -⟩ := digit_upper hc
    rw [List.foldl_append, List.foldl_cons, List.foldl_nil, hexStep_eq _ hc, List.length_append,
      List.length_singleton, pow_succ]
    constructor
    · omega
    · omega

/-- The digits are written from the last one on, as they are read from the first one on. -/
theorem hexToStr_foldl {cs : List Char} (h : ∀ c ∈ cs, isxdigit c = true) :
    hexToStr (cs.foldl hexStep 0) cs.length = cs.map Char.toUpper := by
  induction cs using List.reverseRecOn with
  | nil => rfl
  | append_singleton cs c ih =>
    have hc : isxdigit c = true := h c (by simp)
    obtain ⟨hv₀, hv, hdigit⟩ := digit_upper hc
    have hrest := ih fun d hd ↦ h d (List.mem_append_left _ hd)
    have hdiv : (cs.foldl hexStep 0 * 16 + hexValue c) / 16 = cs.foldl hexStep 0 := by omega
    have hmod : (cs.foldl hexStep 0 * 16 + hexValue c) % 16 = hexValue c := by omega
    rw [List.foldl_append, List.foldl_cons, List.foldl_nil, hexStep_eq _ hc, List.length_append,
      List.length_singleton, hexToStr, hdiv, hmod, hrest, hdigit]
    simp

theorem strToHex_hexToStr (len : ℕ) {x : ℤ} (h₀ : 0 ≤ x) (h : x < 2 ^ 63) :
    strToHex (hexToStr x len) = x % 16 ^ len := by
  have hpos : (0 : ℤ) < 16 ^ len := by positivity
  have hle : x % 16 ^ len ≤ x := by
    have hdiv := Int.emod_add_mul_ediv x (16 ^ len)
    have hquot := mul_nonneg hpos.le (Int.ediv_nonneg h₀ hpos.le)
    linarith
  rw [strToHex, foldl_hexToStr, zero_mul, zero_add]
  exact wrap_offset (Int.emod_nonneg _ hpos.ne') (hle.trans_lt h)

theorem hexToStr_strToHex {cs : List Char} (hlen : cs.length ≤ 15)
    (h : ∀ c ∈ cs, isxdigit c = true) : hexToStr (strToHex cs) cs.length = cs.map Char.toUpper := by
  obtain ⟨h₀, hlt⟩ := foldl_bounds h
  have hpow : (16 : ℤ) ^ cs.length ≤ 16 ^ 15 := pow_le_pow_right₀ (by norm_num) hlen
  have hwrap : strToHex cs = cs.foldl hexStep 0 :=
    wrap_offset h₀ ((hlt.trans_le hpow).trans (by norm_num))
  rw [hwrap]
  exact hexToStr_foldl h

theorem hex_field_codec :
    (∀ (len : ℕ) (x : ℤ), 0 ≤ x → x < 2 ^ 63 → strToHex (hexToStr x len) = x % 16 ^ len) ∧
    (∀ x : ℤ, 0 ≤ x → x < 2 ^ 63 → strToHex (hexToStr x 16) = x) ∧
    ∀ cs : List Char, cs.length ≤ 15 → (∀ c ∈ cs, isxdigit c = true) →
      hexToStr (strToHex cs) cs.length = cs.map Char.toUpper := by
  refine ⟨fun len x h₀ h ↦ strToHex_hexToStr len h₀ h, fun x h₀ h ↦ ?_,
    fun cs hlen h ↦ hexToStr_strToHex hlen h⟩
  rw [strToHex_hexToStr 16 h₀ h]
  exact Int.emod_eq_of_lt h₀ (h.trans (by norm_num))

theorem hex_field_codec_top : strToHex (hexToStr 0x7fffffffffffffff 3) = 0xfff ∧
    strToHex (hexToStr 0x7fffffffffffffff 16) = 0x7fffffffffffffff ∧
    hexToStr (strToHex ['d', 'e', 'A', 'd']) 4 = ['D', 'E', 'A', 'D'] := by
  obtain ⟨hmod, hid, hupper⟩ := hex_field_codec
  refine ⟨?_, hid _ (by norm_num) (by norm_num), hupper _ (by decide) ?_⟩
  · rw [hmod 3 _ (by norm_num) (by norm_num)]
    norm_num
  · exact List.all_eq_true.mp (by decide)

end MqssdModel.BPlusTree.HexField
