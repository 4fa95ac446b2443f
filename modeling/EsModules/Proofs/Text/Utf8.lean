import EsModules.Text.Utf8

/-!
# Reading UTF-8

The bytes of a text are read back as that text.  A character of ASCII is read only where its byte
stands.

* `Utf8.units_encode`, `Utf8.decodeLossy_encode`: texts are read back.
* `Utf8.mem_of_mem_decodeLossy`: no character of ASCII comes from other bytes.
* `Utf8.mem_encode_iff`: the byte of a character of ASCII stands for nothing else.
-/

namespace EsModules.Utf8

/-! ## Bytes -/

/-- What holds of the first 256 numbers as bytes holds of every byte. -/
theorem forall_byte {P : UInt8 → Prop} (h : ∀ n < 256, P (UInt8.ofNat n)) (b : UInt8) : P b := by
  have hb : UInt8.ofNat b.toNat = b := UInt8.ofNat_toNat
  exact hb ▸ h b.toNat b.toNat_lt

/-- A character of ASCII is one byte in UTF-8. -/
theorem utf8EncodeChar_of_lt {c : Char} (h : c.toNat < 0x80) :
    String.utf8EncodeChar c = [UInt8.ofNat c.toNat] := by
  have hval : c.val.toNat ≤ 0x7F := Nat.le_of_lt_succ h
  unfold String.utf8EncodeChar
  rw [if_pos hval]
  rfl

/-- The byte of a character of ASCII is that character again. -/
theorem ofNat_toNat_of_lt {c : Char} (h : c.toNat < 0x80) :
    Char.ofNat (UInt8.ofNat c.toNat).toNat = c := by
  have hbyte : (UInt8.ofNat c.toNat).toNat = c.toNat := by
    rw [UInt8.toNat_ofNat']
    omega
  rw [hbyte, Char.ofNat_toNat]

/-! ## Leading bytes -/

theorem toNat_ofNat_of_lt {n : Nat} (h : n < 256) : (UInt8.ofNat n).toNat = n := by
  rw [UInt8.toNat_ofNat']
  omega

/-- The leading byte of two. -/
theorem lead?_two {n : Nat} (hlow : 0x80 ≤ n) (hhigh : n ≤ 0x7FF) :
    lead? (UInt8.ofNat (n / 64 % 32 + 192)) = some ⟨0, n / 64, 0x80, 0xBF⟩ := by
  have hbyte : (UInt8.ofNat (n / 64 % 32 + 192)).toNat = n / 64 + 192 := by
    rw [toNat_ofNat_of_lt (by omega)]
    omega
  have hbits : n / 64 + 192 - 0xC0 = n / 64 := by omega
  unfold lead?
  dsimp only
  rw [hbyte, if_pos (by simp; omega), hbits]

/-- The leading byte of three, and the second one. -/
theorem lead?_three {n : Nat} (hlow : 0x800 ≤ n) (hhigh : n ≤ 0xFFFF)
    (hsurrogate : ¬ (0xD800 ≤ n ∧ n ≤ 0xDFFF)) :
    ∃ low high, lead? (UInt8.ofNat (n / 4096 % 16 + 224)) = some ⟨1, n / 4096, low, high⟩ ∧
      low ≤ n / 64 % 64 + 128 ∧ n / 64 % 64 + 128 ≤ high := by
  have hbyte : (UInt8.ofNat (n / 4096 % 16 + 224)).toNat = n / 4096 + 224 := by
    rw [toNat_ofNat_of_lt (by omega)]
    omega
  have hbits : n / 4096 + 224 - 0xE0 = n / 4096 := by omega
  unfold lead?
  dsimp only
  rw [hbyte, if_neg (by simp), hbits]
  by_cases hfirst : n / 4096 = 0
  · rw [if_pos (by simp; omega), hfirst]
    exact ⟨_, _, rfl, by omega, by omega⟩
  · rw [if_neg (by simp; omega)]
    by_cases hbelow : n / 4096 = 0xD
    · rw [if_pos (by simp; omega), hbelow]
      exact ⟨_, _, rfl, by omega, by omega⟩
    · rw [if_neg (by simp; omega), if_pos (by simp; omega)]
      exact ⟨_, _, rfl, by omega, by omega⟩

/-- The leading byte of four, and the second one. -/
theorem lead?_four {n : Nat} (hlow : 0x10000 ≤ n) (hhigh : n ≤ 0x10FFFF) :
    ∃ low high, lead? (UInt8.ofNat (n / 262144 % 8 + 240)) = some ⟨2, n / 262144, low, high⟩ ∧
      low ≤ n / 4096 % 64 + 128 ∧ n / 4096 % 64 + 128 ≤ high := by
  have hbyte : (UInt8.ofNat (n / 262144 % 8 + 240)).toNat = n / 262144 + 240 := by
    rw [toNat_ofNat_of_lt (by omega)]
    omega
  have hbits : n / 262144 + 240 - 0xF0 = n / 262144 := by omega
  unfold lead?
  dsimp only
  rw [hbyte, if_neg (by simp), if_neg (by simp), if_neg (by simp), if_neg (by simp), hbits]
  by_cases hfirst : n / 262144 = 0
  · rw [if_pos (by simp; omega), hfirst]
    exact ⟨_, _, rfl, by omega, by omega⟩
  · rw [if_neg (by simp; omega)]
    by_cases hlast : n / 262144 = 4
    · rw [if_neg (by simp; omega), if_pos (by simp; omega), hlast]
      exact ⟨_, _, rfl, by omega, by omega⟩
    · rw [if_pos (by simp; omega)]
      exact ⟨_, _, rfl, by omega, by omega⟩

/-! ## Texts -/

theorem inRange_ofNat {low high n : Nat} (hn : n < 256) (hlow : low ≤ n) (hhigh : n ≤ high) :
    inRange low high (UInt8.ofNat n) = true := by
  unfold inRange
  rw [toNat_ofNat_of_lt hn]
  simp [hlow, hhigh]

theorem tailBits_ofNat {n : Nat} (hn : n < 128) : tailBits (UInt8.ofNat (n + 128)) = n := by
  unfold tailBits
  rw [toNat_ofNat_of_lt (by omega)]
  omega

/-- The bytes of a character are read as that character. -/
theorem units_encodeChar (c : Char) (bs : List UInt8) :
    units (String.utf8EncodeChar c ++ bs) = some c :: units bs := by
  have hvalid : c.val.toNat < 0xD800 ∨ 0xDFFF < c.val.toNat ∧ c.val.toNat < 0x110000 := c.valid
  have hback : Char.ofNat c.val.toNat = c := Char.ofNat_toNat c
  unfold String.utf8EncodeChar
  generalize c.val.toNat = n at hvalid hback
  dsimp only
  by_cases hone : n ≤ 127
  · rw [if_pos hone, List.singleton_append, units, toNat_ofNat_of_lt (by omega),
      if_pos (by omega), hback]
  have hlarge : ∀ m < 64, ¬ (UInt8.ofNat (m + 192)).toNat < 0x80 := by
    intro m hm
    rw [toNat_ofNat_of_lt (by omega)]
    omega
  have htail : ∀ m, inRange 0x80 0xBF (UInt8.ofNat (m % 64 + 128)) = true :=
    fun m => inRange_ofNat (by omega) (by omega) (by omega)
  have hbits : ∀ m, tailBits (UInt8.ofNat (m % 64 + 128)) = m % 64 :=
    fun m => tailBits_ofNat (by omega)
  rw [if_neg hone]
  by_cases htwo : n ≤ 2047
  · have hvalue : n / 64 * 64 + n % 64 = n := by omega
    rw [if_pos htwo]
    simp only [List.cons_append, List.nil_append]
    rw [units, if_neg (hlarge _ (by omega)), lead?_two (by omega) htwo]
    simp only [htail, hbits, hvalue, hback, Bool.not_true, Bool.false_eq_true, if_false,
      beq_self_eq_true, if_true]
  rw [if_neg htwo]
  by_cases hthree : n ≤ 65535
  · obtain ⟨low, high, hlead, hlow, hhigh⟩ := lead?_three (n := n) (by omega) hthree (by omega)
    have hsecond : inRange low high (UInt8.ofNat (n / 64 % 64 + 128)) = true :=
      inRange_ofNat (by omega) hlow hhigh
    have hfirst : ¬ (UInt8.ofNat (n / 4096 % 16 + 224)).toNat < 0x80 :=
      hlarge (n / 4096 % 16 + 32) (by omega)
    have hvalue : (n / 4096 * 64 + n / 64 % 64) * 64 + n % 64 = n := by omega
    rw [if_pos hthree]
    simp only [List.cons_append, List.nil_append]
    rw [units, if_neg hfirst, hlead]
    simp only [hsecond, htail, hbits, hvalue, hback, Bool.not_true, Bool.false_eq_true, if_false,
      beq_self_eq_true, if_true, Nat.reduceBEq]
  · obtain ⟨low, high, hlead, hlow, hhigh⟩ := lead?_four (n := n) (by omega) (by omega)
    have hsecond : inRange low high (UInt8.ofNat (n / 4096 % 64 + 128)) = true :=
      inRange_ofNat (by omega) hlow hhigh
    have hfirst : ¬ (UInt8.ofNat (n / 262144 % 8 + 240)).toNat < 0x80 :=
      hlarge (n / 262144 % 8 + 48) (by omega)
    have hvalue : ((n / 262144 * 64 + n / 4096 % 64) * 64 + n / 64 % 64) * 64 + n % 64 = n := by
      omega
    rw [if_neg hthree]
    simp only [List.cons_append, List.nil_append]
    rw [units, if_neg hfirst, hlead]
    simp only [hsecond, htail, hbits, hvalue, hback, Bool.not_true, Bool.false_eq_true, if_false,
      Nat.reduceBEq]

/-- The bytes of a text are read as its characters. -/
theorem units_encode (cs : List Char) : units (encode cs) = cs.map some := by
  induction cs with
  | nil => rfl
  | cons c cs ih => rw [encode_cons, units_encodeChar, ih, List.map_cons]

theorem decodeLossy_encode (cs : List Char) : decodeLossy (encode cs) = cs := by
  unfold decodeLossy
  rw [units_encode, List.map_map]
  exact List.map_id cs

/-! ## ASCII -/

/-- A number that gives a character other than zero is the code of that character. -/
theorem eq_toNat_of_ofNat_eq {c : Char} {n : Nat} (hc : c ≠ '\x00') (h : Char.ofNat n = c) :
    n = c.toNat := by
  subst h
  by_cases hvalid : n.isValidChar
  · have hof : Char.ofNat n = Char.ofNatAux n hvalid := dif_pos hvalid
    rw [hof]
    rfl
  · exact absurd (dif_neg hvalid) hc

/-- The first two bytes of a character outside ASCII give a value that leads out of ASCII. -/
theorem le_of_lead? {b b₂ : UInt8} {l : Lead} (h : lead? b = some l)
    (hsecond : inRange l.low l.high b₂ = true) :
    2 ≤ l.bits * 64 + tailBits b₂ ∧ (l.more = 0 → 0x80 ≤ l.bits * 64 + tailBits b₂) := by
  have hall : ∀ b, (lead? b).all (fun l => 0x80 ≤ l.low && 2 ≤ l.bits * 64 + (l.low - 0x80) &&
      (l.more != 0 || 2 ≤ l.bits)) = true := forall_byte (by decide +kernel)
  have hlead := hall b
  rw [h, Option.all_some] at hlead
  simp only [Bool.and_eq_true, Bool.or_eq_true, bne_iff_ne, decide_eq_true_eq] at hlead
  simp only [inRange, Bool.and_eq_true, decide_eq_true_eq] at hsecond
  unfold tailBits
  omega

/-- A character of ASCII is read only where its byte stands. -/
theorem mem_of_some_mem_units {c : Char} (hc : c.toNat < 0x80) (hzero : c ≠ '\x00')
    {bs : List UInt8} (h : some c ∈ units bs) : UInt8.ofNat c.toNat ∈ bs := by
  have hother : ∀ n, 0x80 ≤ n → some c ≠ some (Char.ofNat n) := fun n hn heq => by
    have hcode : n = c.toNat := eq_toNat_of_ofNat_eq hzero (Option.some.inj heq).symm
    omega
  fun_induction units bs with
  | case1 => cases h
  | case2 b r hb ih =>
    rcases List.mem_cons.1 h with heq | hmem
    · have hbyte : b.toNat = c.toNat := eq_toNat_of_ofNat_eq hzero (Option.some.inj heq).symm
      rw [← hbyte, UInt8.ofNat_toNat]
      exact List.mem_cons_self
    · exact List.mem_cons_of_mem _ (ih hmem)
  | case4 | case7 | case10 => cases List.mem_singleton.1 h
  | case3 _ _ _ _ ih | case5 _ _ _ _ _ _ _ ih =>
    exact List.mem_cons_of_mem _ (ih ((List.mem_cons.1 h).resolve_left (by simp)))
  | case6 b _ l hlead b₂ r hsecond hmore ih =>
    have hvalue := (le_of_lead? hlead (by simpa using hsecond)).2 (by simpa using hmore)
    have hmem := ih ((List.mem_cons.1 h).resolve_left (hother _ hvalue))
    exact List.mem_cons_of_mem _ (List.mem_cons_of_mem _ hmem)
  | case8 _ _ _ _ _ _ _ _ _ _ ih =>
    have hmem := ih ((List.mem_cons.1 h).resolve_left (by simp))
    exact List.mem_cons_of_mem _ (List.mem_cons_of_mem _ hmem)
  | case9 b _ l hlead b₂ hsecond _ b₃ r _ _ ih =>
    have hvalue := (le_of_lead? hlead (by simpa using hsecond)).1
    have hmem := ih ((List.mem_cons.1 h).resolve_left (hother _ (by omega)))
    exact List.mem_cons_of_mem _ (List.mem_cons_of_mem _ (List.mem_cons_of_mem _ hmem))
  | case11 _ _ _ _ _ _ _ _ _ _ _ _ _ ih =>
    have hmem := ih ((List.mem_cons.1 h).resolve_left (by simp))
    exact List.mem_cons_of_mem _ (List.mem_cons_of_mem _ (List.mem_cons_of_mem _ hmem))
  | case12 b _ l hlead b₂ hsecond _ b₃ _ _ b₄ r _ ih =>
    have hvalue := (le_of_lead? hlead (by simpa using hsecond)).1
    have hmem := ih ((List.mem_cons.1 h).resolve_left (hother _ (by omega)))
    exact List.mem_cons_of_mem _ (List.mem_cons_of_mem _ (List.mem_cons_of_mem _
      (List.mem_cons_of_mem _ hmem)))

/-- No character of ASCII but zero comes from other bytes. -/
theorem mem_of_mem_decodeLossy {c : Char} (hc : c.toNat < 0x80) (hzero : c ≠ '\x00')
    {bs : List UInt8} (h : c ∈ decodeLossy bs) : UInt8.ofNat c.toNat ∈ bs := by
  obtain ⟨u, hu, hcu⟩ := List.mem_map.1 h
  cases u with
  | none =>
    obtain rfl : '\uFFFD' = c := hcu
    exact absurd hc (by decide)
  | some d =>
    obtain rfl : d = c := hcu
    exact mem_of_some_mem_units hc hzero hu

/-- The bytes of a character outside ASCII are outside ASCII. -/
theorem le_of_mem_utf8EncodeChar {c : Char} (h : 0x80 ≤ c.toNat) {b : UInt8}
    (hb : b ∈ String.utf8EncodeChar c) : 0x80 ≤ b.toNat := by
  have hval : 0x80 ≤ c.val.toNat := h
  have hvalid : c.val.toNat < 0xD800 ∨ 0xDFFF < c.val.toNat ∧ c.val.toNat < 0x110000 := c.valid
  have hbyte : ∀ n, 0x80 ≤ n → n < 256 → 0x80 ≤ (UInt8.ofNat n).toNat := by
    intro n hlow hhigh
    rwa [toNat_ofNat_of_lt hhigh]
  unfold String.utf8EncodeChar at hb
  generalize c.val.toNat = n at hval hvalid hb
  dsimp only at hb
  rw [if_neg (by omega)] at hb
  split at hb
  · simp only [List.mem_cons, List.not_mem_nil, or_false] at hb
    rcases hb with rfl | rfl <;> apply hbyte <;> omega
  split at hb
  · simp only [List.mem_cons, List.not_mem_nil, or_false] at hb
    rcases hb with rfl | rfl | rfl <;> apply hbyte <;> omega
  · simp only [List.mem_cons, List.not_mem_nil, or_false] at hb
    rcases hb with rfl | rfl | rfl | rfl <;> apply hbyte <;> omega

/-- The byte of a character of ASCII stands in the bytes of a text where that character stands in
the text. -/
theorem mem_encode_iff {c : Char} (hc : c.toNat < 0x80) {cs : List Char} :
    UInt8.ofNat c.toNat ∈ encode cs ↔ c ∈ cs := by
  have hbyte : (UInt8.ofNat c.toNat).toNat = c.toNat := toNat_ofNat_of_lt (by omega)
  induction cs with
  | nil => simp
  | cons d cs ih =>
    rw [encode_cons, List.mem_append, List.mem_cons]
    refine or_congr ?_ ih
    by_cases hd : d.toNat < 0x80
    · rw [utf8EncodeChar_of_lt hd, List.mem_singleton]
      constructor
      · intro h
        have hcode := congrArg UInt8.toNat h
        rw [hbyte, toNat_ofNat_of_lt (by omega)] at hcode
        exact Char.toNat_inj.1 hcode
      · rintro rfl
        rfl
    · constructor
      · intro h
        have hlarge := le_of_mem_utf8EncodeChar (Nat.le_of_not_lt hd) h
        omega
      · rintro rfl
        exact absurd hc hd

/-! ## Bytes of ASCII within others -/

/-- A text of ASCII has as many bytes as characters. -/
theorem length_encode_of_lt {cs : List Char} (h : ∀ c ∈ cs, c.toNat < 0x80) :
    (encode cs).length = cs.length := by
  induction cs with
  | nil => rfl
  | cons c cs ih =>
    rw [encode_cons, utf8EncodeChar_of_lt (h c List.mem_cons_self), List.length_append,
      ih fun d hd => h d (List.mem_cons_of_mem c hd)]
    simp [Nat.add_comm]

/-- A byte of ASCII continues no character that started in front of it. -/
theorem units_append {b : UInt8} (hb : b.toNat < 0x80) (front back : List UInt8) :
    units (front ++ b :: back) = units front ++ units (b :: back) := by
  have hrange : ∀ low high, 0x80 ≤ low → inRange low high b = false := by
    intro low high hlow
    have hlt : ¬ low ≤ b.toNat := by omega
    simp [inRange, hlt]
  have hlow : ∀ {c l}, lead? c = some l → inRange l.low l.high b = false := by
    intro c l hlead
    have hall : ∀ c, (lead? c).all (fun l => 0x80 ≤ l.low) = true :=
      forall_byte (by decide +kernel)
    have hlead' := hall c
    rw [hlead, Option.all_some, decide_eq_true_eq] at hlead'
    exact hrange _ _ hlead'
  fun_induction units front with
  | case1 => rfl
  | case2 c r hc ih =>
    rw [List.cons_append, units, if_pos hc, ih]
    rfl
  | case3 c r hc hlead ih =>
    rw [List.cons_append, units, if_neg hc, hlead]
    exact congrArg _ ih
  | case4 c hc l hlead =>
    rw [List.cons_append, List.nil_append, units]
    simp [hc, hlead, hlow hlead]
  | case5 c hc l hlead c2 r hsecond ih =>
    rw [List.cons_append] at ih ⊢
    rw [List.cons_append, units]
    simp [hc, hlead, hsecond, ih]
  | case6 c hc l hlead c2 r hsecond hmore ih =>
    rw [List.cons_append, List.cons_append, units]
    simp [hc, hlead, hsecond, hmore, ih]
  | case7 c hc l hlead c2 hsecond hmore =>
    rw [List.cons_append, List.cons_append, List.nil_append, units]
    simp [hc, hlead, hsecond, hmore, hrange]
  | case8 c hc l hlead c2 hsecond hmore c3 r hthird ih =>
    rw [List.cons_append] at ih
    rw [List.cons_append, List.cons_append, List.cons_append, units]
    simp [hc, hlead, hsecond, hmore, hthird, ih]
  | case9 c hc l hlead c2 hsecond hzero c3 r hthird hmore ih =>
    rw [List.cons_append, List.cons_append, List.cons_append, units]
    simp [hc, hlead, hsecond, hzero, hthird, hmore, ih]
  | case10 c hc l hlead c2 hsecond hzero c3 hthird hmore =>
    rw [List.cons_append, List.cons_append, List.cons_append, List.nil_append, units]
    simp [hc, hlead, hsecond, hzero, hthird, hmore, hrange]
  | case11 c hc l hlead c2 hsecond hzero c3 hthird hmore c4 r hfourth ih =>
    rw [List.cons_append] at ih
    rw [List.cons_append, List.cons_append, List.cons_append, List.cons_append, units]
    simp [hc, hlead, hsecond, hzero, hthird, hmore, hfourth, ih]
  | case12 c hc l hlead c2 hsecond hzero c3 hthird hmore c4 r hfourth ih =>
    rw [List.cons_append, List.cons_append, List.cons_append, List.cons_append, units]
    simp [hc, hlead, hsecond, hzero, hthird, hmore, hfourth, ih]

theorem decodeLossy_append {b : UInt8} (hb : b.toNat < 0x80) (front back : List UInt8) :
    decodeLossy (front ++ b :: back) = decodeLossy front ++ decodeLossy (b :: back) := by
  unfold decodeLossy
  rw [units_append hb, List.map_append]

end EsModules.Utf8
