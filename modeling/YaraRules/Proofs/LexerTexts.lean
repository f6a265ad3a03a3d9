import Mathlib.Data.List.Forall2
import Mathlib.Tactic.SplitIfs
import YaraRules.Proofs.LexerSpans
import YaraRules.Proofs.ReadFileNames

/-! Texts of tokens. Where the bytes of a token are those of some text, the token reads as
that text in the stream of its source. -/

namespace YaraRules

/-! ### Characters -/

namespace Utf8

variable {a b c d : UInt8} {rest : Bytes}

theorem toNat_byte {n : Nat} (small : n < 256) : (UInt8.ofNat n).toNat = n := by
  rw [UInt8.toNat_ofNat']
  exact Nat.mod_eq_of_lt small

theorem isTail_iff : isTail b ↔ 0x80 ≤ b.toNat ∧ b.toNat ≤ 0xBF := by
  simp [isTail, UInt8.le_iff_toNat_le]

theorem second3_iff : second3 a b ↔ (a.toNat = 0xE0 ∧ 0xA0 ≤ b.toNat ∧ b.toNat ≤ 0xBF) ∨
    (a.toNat = 0xED ∧ 0x80 ≤ b.toNat ∧ b.toNat ≤ 0x9F) ∨
    (a.toNat ≠ 0xE0 ∧ a.toNat ≠ 0xED ∧ 0xE1 ≤ a.toNat ∧ a.toNat ≤ 0xEF ∧ 0x80 ≤ b.toNat ∧ b.toNat ≤ 0xBF) := by
  unfold second3
  split_ifs <;> simp_all [isTail_iff, UInt8.le_iff_toNat_le, ← UInt8.toNat_inj, and_assoc]

theorem second4_iff : second4 a b ↔ (a.toNat = 0xF0 ∧ 0x90 ≤ b.toNat ∧ b.toNat ≤ 0xBF) ∨
    (a.toNat = 0xF4 ∧ 0x80 ≤ b.toNat ∧ b.toNat ≤ 0x8F) ∨
    (a.toNat ≠ 0xF0 ∧ a.toNat ≠ 0xF4 ∧ 0xF1 ≤ a.toNat ∧ a.toNat ≤ 0xF3 ∧ 0x80 ≤ b.toNat ∧ b.toNat ≤ 0xBF) := by
  unfold second4
  split_ifs <;> simp_all [isTail_iff, UInt8.le_iff_toNat_le, ← UInt8.toNat_inj, and_assoc]

private theorem first?_two (lead : 0xC2 ≤ a.toNat ∧ a.toNat < 0xE0) (tail : isTail b) :
    first? (a :: b :: rest) = some (Char.ofNat (low a 5 * 64 + low b 6), 2) := by
  have ascii : ¬a < 0x80 := UInt8.not_lt.mpr (UInt8.le_iff_toNat_le.mpr (show 0x80 ≤ a.toNat by omega))
  have short : a < 0xE0 := UInt8.lt_iff_toNat_lt.mpr lead.2
  have long : 0xC2 ≤ a := UInt8.le_iff_toNat_le.mpr lead.1
  simp only [first?, ascii, short, long, tail, if_true, if_false, decide_true, Bool.and_self]

private theorem first?_three (next : second3 a b) (tail : isTail c) :
    first? (a :: b :: c :: rest) = some (Char.ofNat (low a 4 * 4096 + low b 6 * 64 + low c 6), 3) := by
  have lead := second3_iff.mp next
  have ascii : ¬a < 0x80 := UInt8.not_lt.mpr (UInt8.le_iff_toNat_le.mpr (show 0x80 ≤ a.toNat by omega))
  have short : ¬a < 0xE0 := UInt8.not_lt.mpr (UInt8.le_iff_toNat_le.mpr (show 0xE0 ≤ a.toNat by omega))
  have long : a < 0xF0 := UInt8.lt_iff_toNat_lt.mpr (show a.toNat < 0xF0 by omega)
  simp only [first?, ascii, short, long, next, tail, if_true, if_false, Bool.and_self]

private theorem first?_four (next : second4 a b) (third : isTail c) (tail : isTail d) :
    first? (a :: b :: c :: d :: rest) =
    some (Char.ofNat (low a 3 * 262144 + low b 6 * 4096 + low c 6 * 64 + low d 6), 4) := by
  have lead := second4_iff.mp next
  have ascii : ¬a < 0x80 := UInt8.not_lt.mpr (UInt8.le_iff_toNat_le.mpr (show 0x80 ≤ a.toNat by omega))
  have short : ¬a < 0xE0 := UInt8.not_lt.mpr (UInt8.le_iff_toNat_le.mpr (show 0xE0 ≤ a.toNat by omega))
  have long : ¬a < 0xF0 := UInt8.not_lt.mpr (UInt8.le_iff_toNat_le.mpr (show 0xF0 ≤ a.toNat by omega))
  simp only [first?, ascii, short, long, next, third, tail, if_true, if_false, Bool.and_self]

/-- A character is read back from its bytes, whatever follows them. -/
theorem first?_encode (c : Char) (rest : Bytes) :
    first? (String.utf8EncodeChar c ++ rest) = some (c, (String.utf8EncodeChar c).length) := by
  have valid : c.val.toNat < 0xD800 ∨ 0xDFFF < c.val.toNat ∧ c.val.toNat < 0x110000 := c.valid
  have same : Char.ofNat c.val.toNat = c := Char.ofNat_toNat c
  rw [String.utf8EncodeChar.eq_1]
  generalize c.val.toNat = v at valid same
  subst same
  have tail (n : Nat) : (UInt8.ofNat (n % 64 + 128)).toNat = n % 64 + 128 := toNat_byte (by omega)
  have behind (n : Nat) : isTail (UInt8.ofNat (n % 64 + 128)) := by rw [isTail_iff, tail]; omega
  have whole {n : Nat} (same : n = v) (width : Nat) : some (Char.ofNat n, width) = some (Char.ofNat v, width) := by
    rw [same]
  split_ifs with one two three
  · have byte : (UInt8.ofNat v).toNat = v := toNat_byte (by omega)
    have small : UInt8.ofNat v < 0x80 := UInt8.lt_iff_toNat_lt.mpr (show (UInt8.ofNat v).toNat < 0x80 by omega)
    simp only [first?, List.cons_append, small, if_true, byte, List.length_cons, List.length_nil]
  · have lead : (UInt8.ofNat (v / 64 % 32 + 192)).toNat = v / 64 + 192 := by rw [toNat_byte (by omega)]; omega
    refine (first?_two (by omega) (behind v)).trans (whole ?_ 2)
    simp only [low, lead, tail, Nat.shiftLeft_eq]
    omega
  · have lead : (UInt8.ofNat (v / 4096 % 16 + 224)).toNat = v / 4096 + 224 := by rw [toNat_byte (by omega)]; omega
    refine (first?_three ?_ (behind v)).trans (whole ?_ 3)
    · rw [second3_iff, lead, tail]
      omega
    · simp only [low, lead, tail, Nat.shiftLeft_eq]
      omega
  · have lead : (UInt8.ofNat (v / 262144 % 8 + 240)).toNat = v / 262144 + 240 := by rw [toNat_byte (by omega)]; omega
    refine (first?_four ?_ (behind _) (behind v)).trans (whole ?_ 4)
    · rw [second4_iff, lead, tail]
      omega
    · simp only [low, lead, tail, Nat.shiftLeft_eq]
      omega

theorem encode_char (c : Char) (text : List Char) : encode (c :: text) = String.utf8EncodeChar c ++ encode text :=
  List.flatMap_cons

theorem encode_cons (c : Char) (text : List Char) : ∃ b tail, encode (c :: text) = b :: (tail ++ encode text) ∧
    first? (encode (c :: text)) = some (c, tail.length + 1) := by
  have whole := encode_char c text
  have read := first?_encode c (encode text)
  have some : String.utf8EncodeChar c ≠ [] := List.length_pos_iff.mp (String.length_utf8EncodeChar c ▸ c.utf8Size_pos)
  obtain ⟨b, tail, bytes⟩ := List.exists_cons_of_ne_nil some
  rw [bytes] at read whole
  exact ⟨b, tail, whole, whole ▸ read⟩

/-- The first character of a text, if a byte below 128 stands for it. -/
theorem head_of_encode {text : List Char} {bytes : Bytes} (same : encode text = b :: bytes) (ascii : b < 0x80) :
    ∃ rest, text = Char.ofNat b.toNat :: rest ∧ encode rest = bytes := by
  cases text with
  | nil => cases same
  | cons c text =>
    obtain ⟨first, tail, whole, read⟩ := encode_cons c text
    obtain ⟨rfl, behind⟩ := List.cons.inj (whole.symm.trans same)
    have found : some (c, tail.length + 1) = some (Char.ofNat first.toNat, 1) := by
      rw [← read, whole]
      simp only [first?, ascii, if_true]
    obtain ⟨rfl, one⟩ := Prod.mk.inj (Option.some.inj found)
    obtain rfl : tail = [] := List.length_eq_zero_iff.mp (Nat.succ.inj one)
    exact ⟨text, rfl, behind⟩

private theorem quote_of_last {c : Char} (last : (String.utf8EncodeChar c).getLast? = some 0x22) : c = '"' := by
  have same : Char.ofNat c.val.toNat = c := Char.ofNat_toNat c
  rw [String.utf8EncodeChar.eq_1] at last
  generalize c.val.toNat = v at last same
  subst same
  have byte {n : Nat} (small : n < 256) (same : UInt8.ofNat n = 0x22) : n = 0x22 := by
    rw [← toNat_byte small, same]
    rfl
  split_ifs at last with one two three
  · rw [byte (by omega) (Option.some.inj last)]
  all_goals
    have tail : v % 64 + 128 = 0x22 := byte (by omega) (Option.some.inj last)
    omega

private theorem quoted_of_encode {text : List Char} {inner : Bytes} (same : encode text = 0x22 :: inner ++ [0x22]) :
    ∃ middle, text = '"' :: middle ++ ['"'] ∧ encode middle = inner := by
  obtain ⟨rest, rfl, behind⟩ := head_of_encode same (by decide)
  rcases List.eq_nil_or_concat rest with rfl | ⟨middle, c, rfl⟩
  · cases inner <;> cases behind
  · have split : encode middle ++ String.utf8EncodeChar c = inner ++ [0x22] := by simpa [encode] using behind
    have last := congrArg List.getLast? split
    have some : String.utf8EncodeChar c ≠ [] := List.length_pos_iff.mp (String.length_utf8EncodeChar c ▸ c.utf8Size_pos)
    rw [List.getLast?_append_of_ne_nil _ some, List.getLast?_concat] at last
    obtain rfl := quote_of_last last
    exact ⟨middle, by simp, List.append_inj_left' split rfl⟩

theorem decodeFrom_append (rest : Bytes) : ∀ tail : Bytes, decodeFrom tail.length (tail ++ rest) = decodeFrom 0 rest
  | [] => rfl
  | _ :: tail => decodeFrom_append rest tail

theorem decode_encode (text : List Char) : decode (encode text) = text := by
  induction text with
  | nil => rfl
  | cons c text ih =>
    obtain ⟨b, tail, whole, read⟩ := encode_cons c text
    rw [whole] at read
    rw [whole, decode, decodeFrom, read]
    exact congrArg (c :: ·) ((decodeFrom_append _ tail).trans ih)

end Utf8

theorem toText_ofText (text : String) : (Bytes.ofText text).toText = text := by
  rw [Bytes.toText, Bytes.ofText, Utf8.decode_encode, String.ofList_toList]

private theorem ofText_inj {text other : String} (same : Bytes.ofText text = Bytes.ofText other) : text = other := by
  rw [← toText_ofText text, same, toText_ofText]

namespace Text

theorem readableFrom_append (rest : Bytes) :
    ∀ tail : Bytes, readableFrom tail.length false (tail ++ rest) = readableFrom 0 false rest
  | [] => rfl
  | _ :: tail => readableFrom_append rest tail

private theorem readableFrom_encode (text : List Char) : readableFrom 0 false (Utf8.encode text) = text := by
  induction text with
  | nil => rfl
  | cons c text ih =>
    obtain ⟨b, tail, whole, read⟩ := Utf8.encode_cons c text
    rw [whole] at read
    rw [whole, readableFrom, read]
    exact congrArg (c :: ·) ((readableFrom_append _ tail).trans ih)

theorem readable_ofText (text : String) : readable (Bytes.ofText text) = text := by
  rw [readable, Bytes.ofText, readableFrom_encode, String.ofList_toList]

end Text

namespace Lexer

variable {kind : TokenKind} {location : Location} {token : Token} {text : String}

/-! ### Literals -/

theorem integerLiteral_text {bytes : Bytes} {literal : Literal} (made : integerLiteral? bytes = some literal) :
    literal.text = bytes.toText := by
  unfold integerLiteral? at made
  dsimp only at made
  split_ifs at made with small decimal signed signed
  all_goals cases made
  · simp only [beq_iff_eq] at decimal
    rw [decimal]
    show toString (Int64.ofNat (integerValue bytes)).toInt = _
    rw [Int64.toInt_ofNat_of_lt signed]
    rfl
  · simp only [beq_iff_eq] at decimal
    rw [decimal]
    show toString (UInt64.ofNat (integerValue bytes)).toNat = _
    rw [UInt64.toNat_ofNat', Nat.mod_eq_of_lt small]
  · rfl
  · rfl

private theorem withSigil_text {sigil : Char} {b : UInt8} (ascii : b < 0x80) (named : Char.ofNat b.toNat = sigil)
    (head : (Bytes.ofText text).head? = some b) : TokenStream.withSigil sigil text = text := by
  obtain ⟨rest, split⟩ := List.head?_eq_some_iff.mp head
  obtain ⟨chars, same, _⟩ := Utf8.head_of_encode split ascii
  have whole : sigil :: text.toList.drop 1 = text.toList := by
    rw [same, ← named]
    rfl
  rw [TokenStream.withSigil, whole, String.ofList_toList]

/-- A token reads as the text of which it was made. -/
theorem makeToken_text (shaped : Shaped (.token kind) (Bytes.ofText text))
    (made : makeToken kind (Bytes.ofText text) location =
    .ok token) : TokenStream.writtenAs token.kind token.literal.text = text := by
  unfold makeToken at made
  split at made
  · cases made
    obtain ⟨inner, bytes⟩ := shaped
    obtain ⟨middle, same, rfl⟩ := Utf8.quoted_of_encode bytes
    have read : Text.readable ((Bytes.ofText text).drop 1).dropLast = String.ofList middle := by
      rw [bytes]
      simp [Text.readable, Text.readableFrom_encode]
    show "\"" ++ Text.readable ((Bytes.ofText text).drop 1).dropLast ++ "\"" = text
    rw [read, ← String.toList_inj, same]
    simp
  · split at made
    next literal found =>
      cases made
      exact (integerLiteral_text found).trans (toText_ofText text)
    · cases made
  · cases made
    exact toText_ofText text
  · cases made
    show (if (Bytes.ofText text).head? == some 0x74 then "true" else "false") = text
    rcases shaped with yes | no
    · rw [yes, ofText_inj yes]
      rfl
    · rw [no, ofText_inj no]
      rfl
  next string _ _ _ =>
    cases made
    show TokenStream.writtenAs kind (Text.readable (Bytes.ofText text)) = text
    rw [Text.readable_ofText]
    unfold TokenStream.writtenAs
    split
    · exact absurd rfl string
    · exact withSigil_text (by decide) rfl shaped
    · exact withSigil_text (by decide) rfl shaped
    · exact withSigil_text (by decide) rfl shaped
    · rfl

/-- Where its bytes are those of a text, a token reads as the text. -/
theorem Covers.texts {source : Bytes} {offset : Nat} {found : List Span} (covers : Covers source offset found) :
    ∀ span ∈ found, ∀ text, span.slice source = Bytes.ofText text →
      TokenStream.writtenAs span.token.kind span.token.literal.text = text := by
  intro span member text same
  obtain ⟨_, _, sited⟩ := covers.each span member
  obtain ⟨kind, location, shaped, made⟩ := sited.made
  rw [same] at shaped made
  exact makeToken_text shaped made

end Lexer

namespace Grammar

variable {id : ChainId} {path : Option String} {content : Bytes} {source : Source}

/-- The tokens of a text are laid one behind the other into the stream of the source. -/
theorem sourceOf_tokens (done : sourceOf id path content = .ok source) :
    Lexer.tokens path content = .ok source.tokens.tokens := by
  obtain ⟨words, found, rfl⟩ := sourceOf_done done
  rw [found]
  refine congrArg Except.ok ?_
  clear found done
  suffices laid : ∀ laid : TokenStream × List Handle, laid.1.Sound →
      laid.1.tokens ++ words = TokenStream.tokens (layWords words laid).1 from
    laid (.empty id, []) (TokenStream.sound_empty id)
  induction words with
  | nil => exact fun laid _ => List.append_nil _
  | cons token words ih =>
    intro laid sound
    have pushed : (laid.1.push token).2.tokens = laid.1.tokens ++ [token] := by
      obtain ⟨_, entries, _⟩ := sound.chain.insertAt (List.append_nil laid.1.chain.entries).symm token
      have parts : (laid.1.push token).2.chain.entries = laid.1.chain.entries ++ [((laid.1.push token).1, token)] :=
        entries
      rw [TokenStream.tokens, TokenStream.entries_eq, parts, List.map_append]
      rfl
    have later := ih ((laid.1.push token).2, if token.kind.isTrivia then laid.2 else (laid.1.push token).1 :: laid.2)
      (sound.push token).1
    rw [pushed] at later
    simpa [layWords] using later

private theorem sourceOf_texts (done : sourceOf id path content = .ok source) : ∀ entry ∈ source.tokens.entries,
    source.tokens.text entry.1 = TokenStream.writtenAs entry.2.kind entry.2.literal.text := by
  intro entry member
  have untouched := sourceOf_untouched done
  have stored : source.tokens.get? entry.1 = some entry.2 := by
    rw [TokenStream.get?_top _ (untouched.sound.chain.chain_eq member)]
    exact (untouched.sound.chain.get?_eq_some _ _).mpr member
  rw [TokenStream.text_eq _ stored, TokenStream.textOf_plain _ (untouched.fresh entry member).1]

theorem sourceOf_ok {words : List Token} (found : Lexer.tokens path content = .ok words) (id : ChainId) :
    ∃ source, sourceOf id path content = .ok source := by
  unfold sourceOf
  rw [found]
  exact ⟨_, rfl⟩

end Grammar

namespace Lexer

/-- The lexer comes to the end of every source, or to a problem, in no more steps than there are bytes, and it
loses nothing of it. Tokens take bytes one behind the other, and all bytes that they do not take are blanks.
In the stream of the source each token reads as the text of its bytes, where these are those of a text. -/
theorem source_covered (file : Option String) (source : Bytes) (id : ChainId) :
    (∀ s s', (step file s = .skipped s' ∨ ∃ token, step file s = .found token s') → s'.rest.length < s.rest.length) ∧
    (∀ fuel, source.length ≤ fuel → tokensFrom file fuel { rest := source } = tokens file source) ∧
    (spans file source).map (·.map Span.token) = tokens file source ∧
    ∀ found, spans file source = .ok found →
      (∀ span ∈ found, span.start < span.stop ∧ span.stop ≤ source.length) ∧
      (found.Pairwise fun a b => a.stop ≤ b.start) ∧
      (∀ i < source.length, (∀ span ∈ found, i < span.start ∨ span.stop ≤ i) → source[i]? = some 0x20 ∨
      source[i]? = some 0x09) ∧
      ∃ laid, Grammar.sourceOf id file source = .ok laid ∧ List.Forall₂ (fun entry span => entry.2 = span.token ∧
        ∀ text, span.slice source = Bytes.ofText text → laid.tokens.text entry.1 = text) laid.tokens.entries found := by
  have same := spansFrom_tokens file source.length 0 { rest := source }
  refine ⟨fun s s' => step_shortens, fun fuel enough =>
    tokensFrom_enough file fuel source.length _ enough (Nat.le_refl _), same, ?_⟩
  intro found done
  have covers := spans_cover done
  have words : tokens file source = .ok (found.map Span.token) :=
    same.symm.trans (congrArg (Except.map (·.map Span.token)) done)
  obtain ⟨laid, run⟩ := Grammar.sourceOf_ok words id
  refine ⟨fun span member => ?_, covers.pairwise, fun i high => covers.blank (Nat.zero_le i) high, laid, run, ?_⟩
  · obtain ⟨_, _, sited⟩ := covers.each span member
    exact ⟨sited.some, sited.inside⟩
  · have order : laid.tokens.entries.map (·.2) = found.map Span.token :=
      Except.ok.inj ((Grammar.sourceOf_tokens run).symm.trans words)
    have pairs : List.Forall₂ (fun entry span => entry.2 = span.token) laid.tokens.entries found := by
      rw [← List.forall₂_eq_eq_eq, List.forall₂_map_left_iff, List.forall₂_map_right_iff] at order
      exact order
    refine List.forall₂_iff_get.mpr ⟨pairs.length_eq, fun i inside inside' => ?_⟩
    have token := (List.forall₂_iff_get.mp pairs).2 i inside inside'
    refine ⟨token, fun text bytes => ?_⟩
    rw [Grammar.sourceOf_texts run _ (List.get_mem _ _), token]
    exact covers.texts _ (List.get_mem _ _) text bytes

/-- A hexadecimal string and a comment. -/
def hexContent : Bytes := Bytes.ofText "$s=\x7b 1? [2-3] \x7d\t//ü"

theorem source_covered_hex : ∃ found, spans none hexContent = .ok found ∧
    found.map (fun span => (span.start, span.stop)) =
      [(0, 2), (2, 3), (3, 4), (5, 7), (8, 9), (9, 10), (10, 11), (11, 12), (12, 13), (14, 15), (16, 20)] ∧
    (∀ i < hexContent.length, (∀ span ∈ found, i < span.start ∨ span.stop ≤ i) → hexContent[i]? = some 0x20 ∨
    hexContent[i]? = some 0x09) ∧
    ∃ laid, Grammar.sourceOf 0 none hexContent = .ok laid ∧ List.Forall₂ (fun entry span => entry.2 = span.token ∧
      ∀ text, span.slice hexContent = Bytes.ofText text →
      laid.tokens.text entry.1 = text) laid.tokens.entries found := by
  have run : (spans none hexContent).toOption.map (·.map fun span => (span.start, span.stop)) = some
      [(0, 2), (2, 3), (3, 4), (5, 7), (8, 9), (9, 10), (10, 11), (11, 12), (12, 13), (14, 15), (16, 20)] := by
        decide +kernel
  cases done : spans none hexContent with
  | error e => rw [done] at run; cases run
  | ok found =>
    rw [done] at run
    obtain ⟨_, _, blanks, laid⟩ := (source_covered none hexContent 0).2.2.2 found done
    exact ⟨found, rfl, Option.some.inj run, blanks, laid⟩

end Lexer

end YaraRules
