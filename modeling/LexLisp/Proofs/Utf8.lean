import LexLisp.Text.Basic

/-!
# Characters and their bytes

The bytes of a character are read as this character, whatever follows them
(`Utf8.first?_bytes`).  So a text of characters is the one its bytes spell.
Conversely a character that is read is spelled by the bytes it is read from
(`Utf8.bytes_of_first?`), so that any bytes are those of the text they spell
(`Text.toBytes_ofBytes`).

The two together fix how bytes are decoded: `Text.Decodes` says it by rules, and
`Text.decodes_iff` that there is one text for any bytes.

A byte that cannot go on with a character parts the bytes before it from those after it
(`Utf8.decodeOnto_append`): what is cut off before a line feed stays cut off.
-/

namespace LexLisp

namespace Utf8

/-- A continuation byte carries its six bits. -/
theorem tail?_ofNat {bits : Nat} (h : bits < 64) :
    tail? (UInt8.ofNat (bits + 0x80)) = some bits := by
  have hnat : (UInt8.ofNat (bits + 0x80)).toNat = bits + 0x80 := by
    rw [UInt8.toNat_ofNat']
    omega
  have hrange : 0x80 ≤ UInt8.ofNat (bits + 0x80) ∧ UInt8.ofNat (bits + 0x80) < 0xC0 := by
    rw [UInt8.le_iff_toNat_le, UInt8.lt_iff_toNat_lt, hnat]
    show 128 ≤ bits + 128 ∧ bits + 128 < 192
    omega
  rw [tail?, if_pos hrange, hnat, Nat.add_sub_cancel]

/-- The code of a character is a scalar value, if it is not written too long. -/
theorem scalar?_toNat {least : Nat} (c : Char) (h : least ≤ c.toNat) :
    scalar? least c.toNat = some c := by
  rw [scalar?, if_pos ⟨h, c.valid⟩, Char.ofNat_toNat]

theorem toNat_lead {n : Nat} (h : n < 256) : (UInt8.ofNat n).toNat = n := by
  rw [UInt8.toNat_ofNat']
  exact Nat.mod_eq_of_lt h

theorem toNat_lt (c : Char) : c.toNat < 0x110000 := by
  have hvalid : c.toNat < 0xd800 ∨ 0xdfff < c.toNat ∧ c.toNat < 0x110000 := c.valid
  omega

/-- The bytes of a character are read as this character, whatever follows them. -/
theorem first?_bytes (c : Char) (rest : List UInt8) :
    ∃ b more, String.utf8EncodeChar c = b :: more ∧
      first? (b :: (more ++ rest)) = some (c, more.length) := by
  obtain ⟨v, hv⟩ : ∃ v, v = c.toNat := ⟨_, rfl⟩
  have hmax : v < 0x110000 := hv ▸ toNat_lt c
  have hscalar : ∀ least, least ≤ v → scalar? least v = some c := by
    intro least h
    rw [hv] at h ⊢
    exact scalar?_toNat c h
  have htail : ∀ n, tail? (UInt8.ofNat (n % 64 + 0x80)) = some (n % 64) :=
    fun n => tail?_ofNat (Nat.mod_lt n (by decide))
  unfold String.utf8EncodeChar
  dsimp only
  rw [show c.val.toNat = v from hv.symm]
  -- As many cases as there are lengths: one byte, two, three, four.
  split
  · refine ⟨_, _, rfl, ?_⟩
    simp only [first?, toNat_lead (show v < 256 by omega)]
    rw [if_pos (by omega), hscalar 0 (Nat.zero_le v)]
    rfl
  · split
    · refine ⟨_, _, rfl, ?_⟩
      simp only [first?, toNat_lead (show v / 64 % 32 + 192 < 256 by omega)]
      rw [if_neg (by omega), if_neg (by omega), if_pos (by omega)]
      have hcode : (v / 64 % 32 + 192 - 192) * 64 + v % 64 = v := by omega
      simp only [List.cons_append, List.getElem?_cons_zero, Option.bind_some, Option.bind_eq_bind,
        htail, hcode, hscalar 0x80 (by omega)]
      rfl
    · split
      · refine ⟨_, _, rfl, ?_⟩
        simp only [first?, toNat_lead (show v / 4096 % 16 + 224 < 256 by omega)]
        rw [if_neg (by omega), if_neg (by omega), if_neg (by omega), if_pos (by omega)]
        have hcode : ((v / 4096 % 16 + 224 - 224) * 64 + v / 64 % 64) * 64 + v % 64 = v := by omega
        simp only [List.cons_append, List.getElem?_cons_zero, List.getElem?_cons_succ,
          Option.bind_some, Option.bind_eq_bind, htail, hcode, hscalar 0x800 (by omega)]
        rfl
      · refine ⟨_, _, rfl, ?_⟩
        simp only [first?, toNat_lead (show v / 262144 % 8 + 240 < 256 by omega)]
        rw [if_neg (by omega), if_neg (by omega), if_neg (by omega), if_neg (by omega),
          if_pos (by omega)]
        have hcode : (((v / 262144 % 8 + 240 - 240) * 64 + v / 4096 % 64) * 64 + v / 64 % 64) * 64 +
            v % 64 = v := by omega
        simp only [List.cons_append, List.getElem?_cons_zero, List.getElem?_cons_succ,
          Option.bind_some, Option.bind_eq_bind, htail, hcode, hscalar 0x10000 (by omega)]
        rfl

/-- The bytes that belong to a character already decoded are passed over. -/
theorem decodeOnto_skip (more rest : List UInt8) (done : Text) :
    decodeOnto more.length done (more ++ rest) = decodeOnto 0 done rest := by
  induction more with
  | nil => rfl
  | cons b more ih => exact ih

/-- The encoding of a character is decoded as that character. -/
theorem decodeOnto_bytes (c : Char) (done : Text) (rest : List UInt8) :
    decodeOnto 0 done (String.utf8EncodeChar c ++ rest) = decodeOnto 0 (.char c :: done) rest := by
  obtain ⟨b, more, hbytes, hfirst⟩ := first?_bytes c rest
  rw [hbytes, List.cons_append, decodeOnto, hfirst]
  exact decodeOnto_skip more rest _

/-- A byte after the first of a character carries six bits. -/
theorem eq_of_tail? {b : UInt8} {bits : Nat} (h : tail? b = some bits) :
    bits < 64 ∧ b.toNat = bits + 0x80 := by
  unfold tail? at h
  split at h
  · rename_i hrange
    rw [UInt8.le_iff_toNat_le, UInt8.lt_iff_toNat_lt] at hrange
    change 128 ≤ b.toNat ∧ b.toNat < 192 at hrange
    have hbits : b.toNat - 128 = bits := Option.some.inj h
    omega
  · cases h

/-- A scalar value that is accepted is the code of its character. -/
theorem toNat_of_scalar? {least n : Nat} {c : Char} (h : scalar? least n = some c) :
    least ≤ n ∧ c.toNat = n := by
  unfold scalar? at h
  split at h
  · rename_i hn
    obtain rfl := Option.some.inj h
    refine ⟨hn.1, ?_⟩
    rw [Char.ofNat, dif_pos hn.2]
    rfl
  · cases h

theorem ofNat_eq {b : UInt8} {n : Nat} (h : n = b.toNat) : UInt8.ofNat n = b := by
  rw [h, UInt8.ofNat_toNat]

/-- The continuation bytes that a character was read from. -/
theorem exists_tail {rest : List UInt8} {n bits : Nat} (h : rest[n]?.bind tail? = some bits) :
    ∃ b, rest[n]? = some b ∧ bits < 64 ∧ b.toNat = bits + 0x80 := by
  obtain ⟨b, hb, hbits⟩ := Option.bind_eq_some_iff.mp h
  exact ⟨b, hb, eq_of_tail? hbits⟩

/-- A character that is read is spelled by the bytes it is read from. -/
theorem bytes_of_first? {b : UInt8} {rest : List UInt8} {c : Char} {n : Nat}
    (h : first? (b :: rest) = some (c, n)) :
    String.utf8EncodeChar c = b :: rest.take n := by
  unfold first? at h
  simp only [Option.bind_eq_bind, Option.pure_def] at h
  unfold String.utf8EncodeChar
  dsimp only
  rw [show c.val.toNat = c.toNat from rfl]
  -- As many cases as there are lengths, after the lead bytes that none has.
  split at h
  · obtain ⟨d, hd, heq⟩ := Option.map_eq_some_iff.mp h
    cases heq
    obtain ⟨-, hc⟩ := toNat_of_scalar? hd
    rw [if_pos (by omega), ofNat_eq hc, List.take_zero]
  · split at h
    · cases h
    · split at h
      · obtain ⟨t₁, ht₁, h⟩ := Option.bind_eq_some_iff.mp h
        obtain ⟨d, hd, heq⟩ := Option.bind_eq_some_iff.mp h
        cases heq
        obtain ⟨b₁, hb₁, hlt₁, hnat₁⟩ := exists_tail ht₁
        obtain ⟨hleast, hc⟩ := toNat_of_scalar? hd
        rw [if_neg (by omega), if_pos (by omega), ofNat_eq (b := b) (by omega),
          ofNat_eq (b := b₁) (by omega), List.take_add_one, hb₁]
        rfl
      · split at h
        · obtain ⟨t₁, ht₁, h⟩ := Option.bind_eq_some_iff.mp h
          obtain ⟨t₂, ht₂, h⟩ := Option.bind_eq_some_iff.mp h
          obtain ⟨d, hd, heq⟩ := Option.bind_eq_some_iff.mp h
          cases heq
          obtain ⟨b₁, hb₁, hlt₁, hnat₁⟩ := exists_tail ht₁
          obtain ⟨b₂, hb₂, hlt₂, hnat₂⟩ := exists_tail ht₂
          obtain ⟨hleast, hc⟩ := toNat_of_scalar? hd
          rw [if_neg (by omega), if_neg (by omega), if_pos (by omega), ofNat_eq (b := b) (by omega),
            ofNat_eq (b := b₁) (by omega), ofNat_eq (b := b₂) (by omega), List.take_add_one,
            List.take_add_one, hb₁, hb₂]
          rfl
        · split at h
          · obtain ⟨t₁, ht₁, h⟩ := Option.bind_eq_some_iff.mp h
            obtain ⟨t₂, ht₂, h⟩ := Option.bind_eq_some_iff.mp h
            obtain ⟨t₃, ht₃, h⟩ := Option.bind_eq_some_iff.mp h
            obtain ⟨d, hd, heq⟩ := Option.bind_eq_some_iff.mp h
            cases heq
            obtain ⟨b₁, hb₁, hlt₁, hnat₁⟩ := exists_tail ht₁
            obtain ⟨b₂, hb₂, hlt₂, hnat₂⟩ := exists_tail ht₂
            obtain ⟨b₃, hb₃, hlt₃, hnat₃⟩ := exists_tail ht₃
            obtain ⟨hleast, hc⟩ := toNat_of_scalar? hd
            rw [if_neg (by omega), if_neg (by omega), if_neg (by omega),
              ofNat_eq (b := b) (by omega), ofNat_eq (b := b₁) (by omega),
              ofNat_eq (b := b₂) (by omega), ofNat_eq (b := b₃) (by omega), List.take_add_one,
              List.take_add_one, List.take_add_one, hb₁, hb₂, hb₃]
            rfl
          · cases h

/-- Decoding loses no byte. -/
theorem toBytes_decodeOnto (bytes : List UInt8) (skip : Nat) (done : Text) :
    Text.toBytes (decodeOnto skip done bytes) = Text.toBytes done.reverse ++ bytes.drop skip := by
  induction bytes generalizing skip done with
  | nil => simp [decodeOnto]
  | cons b rest ih =>
      cases skip with
      | succ skip => rw [decodeOnto, ih, List.drop_succ_cons]
      | zero =>
          rw [decodeOnto]
          split
          · rename_i c more hfirst
            rw [ih, List.drop_zero]
            simp only [Text.toBytes, List.reverse_cons, List.flatMap_append, List.flatMap_singleton,
              Rune.bytes, bytes_of_first? hfirst, List.append_assoc, List.cons_append,
              List.take_append_drop]
          · rw [ih, List.drop_zero]
            simp [Text.toBytes, Rune.bytes]

/-- A character goes no further than the bytes there are. -/
theorem le_length_of_first? {b : UInt8} {rest : List UInt8} {c : Char} {n : Nat}
    (h : first? (b :: rest) = some (c, n)) : n ≤ rest.length := by
  obtain ⟨b', more, hbytes, hfirst⟩ := first?_bytes c (rest.drop n)
  obtain ⟨rfl, rfl⟩ := List.cons.inj (hbytes.symm.trans (bytes_of_first? h))
  rw [List.take_append_drop, h] at hfirst
  have hn : n = (rest.take n).length := congrArg Prod.snd (Option.some.inj hfirst)
  rw [List.length_take] at hn
  omega

/-- Bytes with which a character begins are its encoding and what follows. -/
theorem split_of_first? {b : UInt8} {rest : List UInt8} {c : Char} {more : Nat}
    (h : first? (b :: rest) = some (c, more)) :
    b :: rest = String.utf8EncodeChar c ++ rest.drop more := by
  rw [bytes_of_first? h, List.cons_append, List.take_append_drop]

/-- No character is found exactly where the bytes begin with the encoding of none. -/
theorem first?_eq_none_iff {b : UInt8} {bytes : List UInt8} :
    first? (b :: bytes) = none ↔ ∀ c rest, b :: bytes ≠ String.utf8EncodeChar c ++ rest := by
  constructor
  · intro hnone c rest hbytes
    obtain ⟨b', tail, hc, hread⟩ := first?_bytes c rest
    rw [hc, List.cons_append] at hbytes
    rw [hbytes, hread] at hnone
    cases hnone
  · intro hno
    cases hfirst : first? (b :: bytes) with
    | none => rfl
    | some found => exact absurd (split_of_first? hfirst) (hno found.1 _)

/-- Bytes that begin with a character decode to it first. -/
theorem decodeOnto_of_some {b : UInt8} {rest : List UInt8} {c : Char} {more : Nat}
    (h : first? (b :: rest) = some (c, more)) (done : Text) :
    decodeOnto 0 done (b :: rest) = decodeOnto more (.char c :: done) rest := by
  rw [decodeOnto, h]

/-- A byte that begins no character decodes as it is. -/
theorem decodeOnto_of_none {b : UInt8} {rest : List UInt8} (h : first? (b :: rest) = none)
    (done : Text) : decodeOnto 0 done (b :: rest) = decodeOnto 0 (.stray b :: done) rest := by
  rw [decodeOnto, h]

section Parting

variable {b : UInt8} (hb : tail? b = none)
include hb

/-- A byte that is no continuation ends a character, and so does the end of the bytes. -/
theorem first?_append (a : UInt8) (more rest : List UInt8) :
    first? (a :: (more ++ b :: rest)) = first? (a :: more) := by
  match more with
  | [] => simp [first?, hb]
  | [_] => simp [first?, hb]
  | [_, _] => simp [first?, hb]
  | _ :: _ :: _ :: _ => simp [first?]

/-- What comes before such a byte is decoded for itself. -/
theorem decodeOnto_append (bytes rest : List UInt8) {skip : Nat} (hskip : skip ≤ bytes.length)
    (done : Text) :
    decodeOnto skip done (bytes ++ b :: rest) =
      decodeOnto 0 (decodeOnto skip done bytes).reverse (b :: rest) := by
  induction bytes generalizing skip done with
  | nil =>
      obtain rfl : skip = 0 := Nat.le_zero.mp hskip
      rw [decodeOnto, List.reverse_reverse, List.nil_append]
  | cons a bytes ih =>
      rw [List.cons_append]
      cases skip with
      | succ skip => exact ih (Nat.le_of_succ_le_succ hskip) done
      | zero =>
          have hsame := first?_append hb a bytes rest
          cases hfirst : first? (a :: bytes) with
          | none =>
              rw [decodeOnto_of_none hfirst, decodeOnto_of_none (hsame.trans hfirst)]
              exact ih (Nat.zero_le _) _
          | some found =>
              obtain ⟨c, more⟩ := found
              rw [decodeOnto_of_some hfirst, decodeOnto_of_some (hsame.trans hfirst)]
              exact ih (le_length_of_first? hfirst) _

end Parting

/-- The runes read so far come first. -/
theorem decodeOnto_eq_append (bytes : List UInt8) (skip : Nat) (done : Text) :
    decodeOnto skip done bytes = done.reverse ++ decodeOnto skip [] bytes := by
  induction bytes generalizing skip done with
  | nil => simp [decodeOnto]
  | cons b rest ih =>
      cases skip with
      | succ skip => exact ih skip done
      | zero =>
          rw [decodeOnto, decodeOnto]
          split
          · rw [ih, ih _ [_]]
            simp
          · rw [ih, ih _ [_]]
            simp

end Utf8

namespace Text

/-- The bytes of a character are decoded to it. -/
theorem ofBytes_char_append (c : Char) (rest : List UInt8) :
    ofBytes (String.utf8EncodeChar c ++ rest) = .char c :: ofBytes rest := by
  rw [ofBytes, Utf8.decodeOnto_bytes, Utf8.decodeOnto_eq_append]
  rfl

/-- A text of characters is the one its bytes spell. -/
theorem ofBytes_toBytes_ofChars (cs : List Char) : ofBytes (toBytes (ofChars cs)) = ofChars cs := by
  induction cs with
  | nil => rfl
  | cons c rest ih =>
      show ofBytes (String.utf8EncodeChar c ++ toBytes (ofChars rest)) = _
      rw [ofBytes_char_append, ih]
      rfl

/-- The bytes are decoded to the text: from the left, bytes that spell a character become this
character, and a byte with which no character begins becomes a rune of its own. -/
inductive Decodes : List UInt8 → Text → Prop
  | nil : Decodes [] []
  | char (c : Char) {bytes : List UInt8} {t : Text} (h : Decodes bytes t) :
      Decodes (String.utf8EncodeChar c ++ bytes) (.char c :: t)
  | stray {b : UInt8} {bytes : List UInt8} {t : Text}
      (hb : ∀ c rest, b :: bytes ≠ String.utf8EncodeChar c ++ rest) (h : Decodes bytes t) :
      Decodes (b :: bytes) (.stray b :: t)

/-- A byte with which no character begins is a rune of its own. -/
theorem ofBytes_stray_cons {b : UInt8} {rest : List UInt8} (h : Utf8.first? (b :: rest) = none) :
    ofBytes (b :: rest) = .stray b :: ofBytes rest := by
  rw [ofBytes, Utf8.decodeOnto_of_none h, Utf8.decodeOnto_eq_append]
  rfl

/-- Any bytes are decoded to the text they spell.  The bytes that are left get fewer with every
rune. -/
theorem decodes_ofBytes (bytes : List UInt8) : Decodes bytes (ofBytes bytes) := by
  match bytes with
  | [] => exact .nil
  | b :: rest =>
      cases hfirst : Utf8.first? (b :: rest) with
      | some found =>
          obtain ⟨c, n⟩ := found
          rw [Utf8.split_of_first? hfirst, ofBytes_char_append]
          exact .char c (decodes_ofBytes (rest.drop n))
      | none =>
          rw [ofBytes_stray_cons hfirst]
          exact .stray (Utf8.first?_eq_none_iff.mp hfirst) (decodes_ofBytes rest)
termination_by bytes.length
decreasing_by
  · exact Nat.lt_succ_self _
  · rw [List.length_drop, List.length_cons]
    omega

/-- **There is one text for any bytes**, and it is the one they spell. -/
theorem decodes_iff {bytes : List UInt8} {t : Text} : Decodes bytes t ↔ t = ofBytes bytes := by
  constructor
  · intro h
    induction h with
    | nil => rfl
    | char c _ ih => rw [ofBytes_char_append, ih]
    | stray hb _ ih => rw [ofBytes_stray_cons (Utf8.first?_eq_none_iff.mpr hb), ih]
  · intro h
    rw [h]
    exact decodes_ofBytes bytes

/-- Any bytes are those of the text they spell. -/
theorem toBytes_ofBytes (bytes : List UInt8) : toBytes (ofBytes bytes) = bytes :=
  Utf8.toBytes_decodeOnto bytes 0 []

/-- A character of one byte parts the bytes before it from those after it. -/
theorem ofBytes_append_char {c : Char} {b : UInt8} (hc : String.utf8EncodeChar c = [b])
    (hb : Utf8.tail? b = none) (bytes rest : List UInt8) :
    ofBytes (bytes ++ b :: rest) = ofBytes bytes ++ .char c :: ofBytes rest := by
  have hbyte : b :: rest = String.utf8EncodeChar c ++ rest := by
    rw [hc]
    rfl
  rw [ofBytes, Utf8.decodeOnto_append hb bytes rest (Nat.zero_le _) [], hbyte,
    Utf8.decodeOnto_bytes, Utf8.decodeOnto_eq_append, List.reverse_cons, List.reverse_reverse,
    List.append_assoc]
  rfl

/-- A line break splits bytes as it splits the text they decode to. -/
theorem ofBytes_append_newline (a b : List UInt8) :
    ofBytes (a ++ 0x0A :: b) = ofBytes a ++ .char '\n' :: ofBytes b :=
  ofBytes_append_char rfl rfl a b

end Text

end LexLisp
