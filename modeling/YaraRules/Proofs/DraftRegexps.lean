import YaraRules.Proofs.DraftForms
import YaraRules.Proofs.RegexpTexts
import YaraRules.Proofs.RegexpWords

/-! Regular expressions of drafts. A draft takes the last slash of the text for the closing one,
and any number of modifiers; the lexer takes the first slash without a backslash, and two
modifiers at most. The text is read back as the same regular expression if both agree. -/

namespace YaraRules

namespace Regexp

variable {text : String} {r : Regexp}

private theorem splitLast_unique {c : Char} {after : List Char} (absent : c ∉ after) (before : List Char) :
    splitLast c (before ++ c :: after) = some (before, after) := by
  have none : splitLast c after = none := by
    induction after with
    | nil => rfl
    | cons d rest ih =>
      have other := List.ne_of_not_mem_cons absent
      rw [splitLast, ih (List.not_mem_of_not_mem_cons absent)]
      simp [Ne.symm other]
  induction before with
  | nil => rw [List.nil_append, splitLast, none]; simp
  | cons d rest ih => rw [List.cons_append, splitLast, ih]

/-- The text is read as one token, and that token as the regular expression. -/
def ReadAlone (file : Option String) (text : String) (r : Regexp) : Prop :=
  ∃ token, Lexer.Alone file (Bytes.ofText text) token ∧ token.kind = .regexp ∧ Regexp.read token.literal.text = .ok r

/-- The text is written as the lexer has it. -/
def Written (text : String) (r : Regexp) : Prop :=
  ∃ content, text.toList = '/' :: (content ++ '/' :: r.modifiers.toList) ∧ Lexer.Content content ∧
    r.modifiers.length ≤ 2

private theorem readAlone_iff (read : Regexp.read text = .ok r) (file : Option String) :
    ReadAlone file text r ↔ Written text r := by
  obtain ⟨pattern, split, known, _⟩ := read_done read
  have bytes : Bytes.ofText text = 0x2F :: Utf8.encode (pattern ++ '/' :: r.modifiers.toList) := by
    rw [Bytes.ofText, split]
    rfl
  have length : (Bytes.ofText text).length = 1 + (Utf8.encode (pattern ++ '/' :: r.modifiers.toList)).length := by
    rw [bytes, List.length_cons, Nat.add_comm]
  constructor
  · rintro ⟨token, alone, kind, _⟩
    have found := Lexer.lexeme_of_alone (by simp [bytes]) alone
    rw [kind, length, bytes, Lexer.lexeme_regexp, Lexer.encloses_iff] at found
    obtain ⟨content, letters, same, valid, most, all⟩ := found
    -- No modifier is a slash, so both have split the text at the same place.
    have absent : '/' ∉ r.modifiers.toList := fun member => by
      rcases known _ member with same | same <;> cases same
    have absent' : '/' ∉ letters := fun member => by
      cases List.all_eq_true.mp all _ member
    have here := splitLast_unique absent pattern
    rw [same, splitLast_unique absent' content] at here
    obtain ⟨rfl, rfl⟩ := Prod.mk.inj (Option.some.inj here)
    exact ⟨content, split, valid, most⟩
  · rintro ⟨content, same, valid, most⟩
    have found : Lexer.lexeme? .normal (Bytes.ofText text) = some (.token .regexp, (Bytes.ofText text).length) := by
      rw [length, bytes, Lexer.lexeme_regexp, Lexer.encloses_iff]
      refine ⟨content, r.modifiers.toList, ?_, valid, most, ?_⟩
      · exact (List.cons.inj (split.symm.trans same)).2
      · rw [List.all_eq_true]
        intro c member
        rcases known c member with rfl | rfl <;> rfl
    obtain ⟨token, alone, kind, reads⟩ := Lexer.alone_of_lexeme file found
    exact ⟨token, alone, kind, by rw [reads, read]⟩

end Regexp

open TokenStream (Tells)

/-- A condition that is a regular expression is one token with the text that was read. -/
theorem ConditionDraft.emit_regexp (pattern modifiers : String) :
    Emits (ConditionDraft.regexp pattern modifiers).emit fun e s =>
    ∃ token r, e = .regexp .regexp token r ∧ Regexp.read ("/" ++ pattern ++ "/" ++ modifiers) = .ok r ∧
      s.Tells token { kind := .regexp, literal := .ofWritten ("/" ++ pattern ++ "/" ++ modifiers) } := by
  rw [ConditionDraft.emit]
  cases read : Regexp.read ("/" ++ pattern ++ "/" ++ modifiers) with
  | error fault => exact fun s a s' _ done => nomatch done
  | ok r =>
    refine (Emits.put { kind := .regexp, literal := .ofWritten ("/" ++ pattern ++ "/" ++ modifiers) } rfl).bind
      (lasts_tells _) fun token => ?_
    exact .pure fun s tells => ⟨token, r, rfl, rfl, tells⟩

private theorem RuleDraft.strings_withRegexp {draft : RuleDraft} {name pattern modifiers : String}
    (fine : (draft.withRegexp name pattern modifiers).error = none) : ∃ r,
    Regexp.read ("/" ++ pattern ++ "/" ++ modifiers) = .ok r ∧
      (draft.withRegexp name pattern modifiers).strings.getLast? =
        some { id := name, content := .regexp ("/" ++ pattern ++ "/" ++ modifiers) r } := by
  unfold RuleDraft.withRegexp at fine ⊢
  dsimp only at fine ⊢
  cases read : Regexp.read ("/" ++ pattern ++ "/" ++ modifiers) with
  | error fault =>
    rw [read] at fine
    cases error : draft.error <;> simp [RuleDraft.fail, error] at fine
  | ok r =>
    refine ⟨r, rfl, ?_⟩
    simp only [read, RuleDraft.withString] at fine ⊢
    split_ifs at fine ⊢ with invalid twice
    · cases error : draft.error <;> simp [RuleDraft.fail, error] at fine
    · cases error : draft.error <;> simp [RuleDraft.fail, error] at fine
    · simp

/-- A regular expression that a draft takes is written between slashes as it was given, and the draft
holds what is read from that text. The lexer reads the text back as one token, and so as the same
regular expression, if it comes to the same end of it, with two modifiers at most. -/
theorem draft_regexps (pattern modifiers : String) (file : Option String) :
    (∀ id built, (ConditionDraft.regexp pattern modifiers).build id = .ok built →
    ∃ token r, built.node = .regexp .regexp token r ∧
      built.tokens.text token = "/" ++ pattern ++ "/" ++ modifiers ∧
      Regexp.read ("/" ++ pattern ++ "/" ++ modifiers) = .ok r ∧
      (Regexp.ReadAlone file ("/" ++ pattern ++ "/" ++ modifiers) r ↔
      Regexp.Written ("/" ++ pattern ++ "/" ++ modifiers) r)) ∧
    ∀ (draft : RuleDraft) name, (draft.withRegexp name pattern modifiers).error = none →
      ∃ r, (draft.withRegexp name pattern modifiers).strings.getLast? =
          some { id := name, content := .regexp ("/" ++ pattern ++ "/" ++ modifiers) r } ∧
        Regexp.read ("/" ++ pattern ++ "/" ++ modifiers) = .ok r ∧
        (Regexp.ReadAlone file ("/" ++ pattern ++ "/" ++ modifiers) r ↔
        Regexp.Written ("/" ++ pattern ++ "/" ++ modifiers) r) := by
  constructor
  · intro id built done
    have written := ConditionDraft.build_done done
    obtain ⟨_, _, token, r, node, read, tells⟩ :=
      ConditionDraft.emit_regexp pattern modifiers _ _ _ (TokenStream.drafted_empty id) written
    exact ⟨token, r, node, tells.text, read, Regexp.readAlone_iff read file⟩
  · intro draft name fine
    obtain ⟨r, read, last⟩ := RuleDraft.strings_withRegexp fine
    exact ⟨r, last, read, Regexp.readAlone_iff read file⟩

/-- A slash is taken into the pattern by a draft and ends it for the lexer. -/
theorem draft_regexps_slash : (∃ id built token r, (ConditionDraft.regexp "ab+" "i").build id = .ok built ∧
      built.node = .regexp .regexp token r ∧ Regexp.ReadAlone none ("/" ++ "ab+" ++ "/" ++ "i") r) ∧
    ∃ r, (({} : RuleDraft).withRegexp "$a" "a/b" "").strings.getLast? =
    some { id := "$a", content := .regexp ("/" ++ "a/b" ++ "/" ++ "") r } ∧
      ¬Regexp.ReadAlone none ("/" ++ "a/b" ++ "/" ++ "") r := by
  constructor
  · obtain ⟨built, done⟩ : ∃ built, (ConditionDraft.regexp "ab+" "i").build 0 = .ok built := ⟨_, rfl⟩
    obtain ⟨token, r, node, text, read, alone⟩ := (draft_regexps "ab+" "i" none).1 0 built done
    have known : Regexp.read ("/" ++ "ab+" ++ "/" ++ "i") =
      .ok ⟨.concat [.char 'a', .iteration (.char 'b') .oneOrMore true], "i"⟩ := rfl
    obtain rfl := Except.ok.inj (read.symm.trans known)
    refine ⟨0, built, token, _, done, node, alone.mpr ⟨['a', 'b', '+'], by decide, ?_, by decide⟩⟩
    exact .first (by decide) (by decide) (.plain (by decide) (by decide) (by decide)
      (.plain (by decide) (by decide) (by decide) .nil))
  · obtain ⟨r, last, read, alone⟩ := (draft_regexps "a/b" "" none).2 {} "$a" rfl
    have known : Regexp.read ("/" ++ "a/b" ++ "/" ++ "") = .ok ⟨.concat [.char 'a', .char '/', .char 'b'], ""⟩ := rfl
    obtain rfl := Except.ok.inj (read.symm.trans known)
    refine ⟨_, last, fun reads => ?_⟩
    obtain ⟨content, split, valid, _⟩ := alone.mp reads
    obtain rfl : content = ['a', '/', 'b'] := by
      have same : (content ++ ['/']) = ['a', '/', 'b'] ++ ['/'] := (List.cons.inj split).2.symm
      exact List.append_cancel_right same
    cases valid with
    | first _ _ body =>
      cases body with
      | plain _ slash _ _ => exact slash rfl

end YaraRules
