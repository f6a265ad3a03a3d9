import YaraRules.Proofs.ReadOwners
import YaraRules.Proofs.TokenEnds

/-! Texts of tokens that were read. The lexer leaves no text that ends in white space but in line
breaks and comments. Reading gives tokens other kinds, and a number that a minus sign stands
before gets another literal; the text of a token still ends in a character that shows. -/

namespace YaraRules

open TokenStream (Plain)

/-! ### Texts and kinds -/

/-- A text with a character other than white space. -/
def Text.Visible (text : String) : Prop := ∃ c ∈ text.toList, isBlank c = false

theorem Text.Firm.visible {text : String} (firm : Firm text) : Visible text := by
  obtain ⟨c, last, black⟩ := firm
  exact ⟨c, List.mem_of_getLast? last, black⟩

theorem Text.Visible.ne_empty {text : String} (visible : Visible text) : text ≠ "" := by
  rintro rfl
  obtain ⟨_, member, _⟩ := visible
  simp at member

private theorem Text.black_digit {c : Char} (digit : c.isDigit) : isBlank c = false := by
  have bounds : 48 ≤ c.toNat ∧ c.toNat ≤ 57 := by simpa [Char.isDigit, UInt32.le_iff_toNat_le] using digit
  unfold isBlank
  generalize c.toNat = code at bounds
  rw [Bool.eq_false_iff]
  intro blank
  simp [within, blankRanges] at blank
  omega

open Text (Firm Visible)

/-- What the text of a token is like that has the kind. -/
def TokenKind.Fits (kind : TokenKind) (text : String) : Prop :=
  match kind with
  | .newLine => True
  | .lineComment => Visible text
  | _ => Firm text

theorem TokenKind.fits_of_firm {text : String} (firm : Firm text) (kind : TokenKind) : kind.Fits text := by
  unfold Fits
  split
  · trivial
  · exact firm.visible
  · exact firm

theorem TokenKind.firm_of_word {kind : TokenKind} {text : String} (word : kind.isTrivia = false)
    (fits : kind.Fits text) : Firm text := by
  unfold Fits at fits
  split at fits
  · cases word
  · cases word
  · exact fits

namespace Lexer

theorem found_fits {file : Option String} {s s' : State} {token : Token}
    (done : step file s = .found token s') : token.kind.Fits (Grammar.shown token) := by
  obtain ⟨mode, kind, length, found, _, same, ⟨location, made⟩, _⟩ := found_mode done
  have ended : Ended (.token kind) (s.rest.take length) (s.rest.drop length) :=
    candidates_ended mode s.rest _ (mem_of_longest found) length rfl
  unfold Ended at ended
  split at ended
  next blank => cases blank
  next line =>
    cases line
    rcases same with same | ⟨other, _⟩
    · rw [same]
      trivial
    · cases other
  next comment =>
    cases comment
    rcases same with same | ⟨other, _⟩
    · obtain ⟨inner, taken, _⟩ := ended
      obtain ⟨rest, read⟩ := @lineComment_read inner
      rw [same, taken] at made
      cases made
      show Visible (Text.readable (0x2F :: 0x2F :: inner))
      exact ⟨'/', by simp [read], rfl⟩
    · cases other
  · exact TokenKind.fits_of_firm (makeToken_firm ended made) _

private theorem tokensFrom_fit {file : Option String} {fuel : Nat} {s : State} {found : List Token}
    (done : tokensFrom file fuel s = .ok found) : ∀ token ∈ found, token.kind.Fits (Grammar.shown token) := by
  induction fuel generalizing s found with
  | zero =>
    cases done
    exact fun token member => absurd member List.not_mem_nil
  | succ fuel ih =>
    rcases tokensFrom_cases done with rfl | ⟨s', _, more⟩ | ⟨token, s', later, made, more, rfl⟩
    · exact fun token member => absurd member List.not_mem_nil
    · exact ih more
    · exact List.forall_mem_cons.mpr ⟨found_fits made, ih more⟩

end Lexer

/-- Tokens that are written by their own literals have texts that fit their kinds. -/
def TokenStream.Spoken (s : TokenStream) : Prop := ∀ h a, s.get? h = some a → Plain a → a.kind.Fits (Grammar.shown a)

namespace TokenStream.Spoken

variable {s : TokenStream} {h : Handle} {f : Token → Token}

/-- One token changes, and its text still fits. -/
theorem modify (spoken : s.Spoken)
    (fits : ∀ a, s.get? h = some a → Plain (f a) → (f a).kind.Fits (Grammar.shown (f a))) : (s.modify h f).Spoken := by
  intro k b stored plain
  rw [TokenStream.get?_modify] at stored
  split_ifs at stored with same
  · obtain ⟨a, held, rfl⟩ := Option.map_eq_some_iff.mp stored
    exact fits a held plain
  · exact spoken k b stored plain

end TokenStream.Spoken

theorem Ensures.both {σ ε α : Type} {pre pre' : σ → Prop} {step : StateT σ (Except ε) α} {post post' : α → σ → Prop}
    (first : Ensures pre step post) (second : Ensures pre' step post') :
    Ensures (fun s => pre s ∧ pre' s) step fun a s => post a s ∧ post' a s :=
  fun s a s' done before => ⟨first s a s' done before.1, second s a s' done before.2⟩

namespace Grammar

/-! ### Steps -/

/-- What was read so far has texts that fit, and so has what is still to be read. -/
abbrev State.Spoken (s : State) : Prop := s.source.tokens.Spoken

/-- A step after which texts still fit. -/
abbrev Speaks {α : Type} (step : Parse α) : Prop := Ensures State.Spoken step fun _ => State.Spoken

/-- The token is of a kind. -/
def Of (kind : TokenKind) (h : Handle) (s : State) : Prop := ∃ a, s.source.tokens.get? h = some a ∧ a.kind = kind

section

variable {α β : Type} {kind : TokenKind} {h : Handle}

private theorem advance_speaks : Speaks advance := by
  intro s h s' done spoken
  obtain ⟨rest, _, rfl⟩ := advance_done done
  exact spoken

private theorem advance_of : Ensures (fun s => Next kind s ∧ s.Spoken) advance fun h s => Of kind h s ∧ s.Spoken := by
  intro s h s' done ⟨next, spoken⟩
  obtain ⟨rest, read, rfl⟩ := advance_done done
  exact ⟨by simpa [Next, Of, read] using next, spoken⟩

private theorem expect_of (kind : TokenKind) :
    Ensures State.Spoken (expect kind) fun h s => Of kind h s ∧ s.Spoken := by
  refine .look (fun _ => rfl) fun next => .ite (fun same => ?_) fun _ => .never (never_unexpected _)
  exact .consider _ (fun s seen => ⟨seen.1.trans (beq_iff_eq.mp same), seen.2⟩) advance_of

private theorem expect_speaks (kind : TokenKind) : Speaks (expect kind) :=
  .weaken (expect_of kind) fun _ _ known => known.2

private theorem accept_of (kind : TokenKind) :
    Ensures State.Spoken (accept? kind) fun found s => (∀ h ∈ found, Of kind h s) ∧ s.Spoken := by
  refine .look (fun _ => rfl) fun next => .ite (fun same => ?_) fun _ => .pure fun s known => ⟨nofun, known.2⟩
  refine .bind (.consider _ (fun s seen => ⟨seen.1.trans (beq_iff_eq.mp same), seen.2⟩) advance_of) fun h => .pure
    fun s known => ?_
  exact ⟨fun k held => Option.some.inj held ▸ known.1, known.2⟩

private theorem accept_speaks (kind : TokenKind) : Speaks (accept? kind) :=
  .weaken (accept_of kind) fun _ _ known => known.2

private theorem refine_speaks (firm : ∀ text, kind.Fits (TokenStream.writtenAs kind text) → Firm text)
    (other : TokenKind) : Ensures (fun s => Of kind h s ∧ s.Spoken) (refine h other) fun _ => State.Spoken := by
  refine .modify ?_
  intro s ⟨⟨a, stored, same⟩, spoken⟩
  refine spoken.modify fun b held plain => TokenKind.fits_of_firm (Lexer.writtenAs_firm _ (firm _ ?_)) _
  obtain rfl := Option.some.inj (stored.symm.trans held)
  have fits := spoken h a stored plain
  rwa [shown, same] at fits

private theorem breakAfter_speaks (h : Handle) (wanted : Bool) : Speaks (breakAfter h wanted) :=
  .modify fun _ spoken => spoken.modify fun a held plain => spoken h a held plain

private theorem forM_speaks {check : α → Parse PUnit} (each : ∀ a, Speaks (check a)) (items : List α) :
    Speaks (items.forM check) := by
  induction items with
  | nil => exact .pure fun _ spoken => spoken
  | cons item rest ih => exact .bind (each item) fun _ => ih

private theorem itemsWhile_speaks {starts : TokenKind → Bool} {item : Parse α} (each : Speaks item) :
    ∀ bound, Speaks (itemsWhile starts item bound)
  | 0 => .pure fun _ spoken => spoken
  | bound + 1 => .skip (fun _ => rfl) fun _ => .ite
    (fun _ => .bind each fun _ => .bind (itemsWhile_speaks each bound) fun _ => .pure fun _ spoken => spoken)
      fun _ => .pure fun _ spoken => spoken

private theorem separated_speaks {separator : TokenKind} {item : Parse α} (each : Speaks item) :
    ∀ bound, Speaks (separated separator item bound)
  | 0 => .bind each fun _ => .pure fun _ spoken => spoken
  | bound + 1 => .bind each fun _ => .bind (accept_speaks separator) fun next => by
    cases next with
    | none => exact .pure fun _ spoken => spoken
    | some _ => exact .bind (separated_speaks each bound) fun _ => .pure fun _ spoken => spoken

end

private theorem checkEscapes_speaks (h : Handle) : Speaks (checkEscapes h) := by
  refine .skip (fun _ => rfl) fun tokens => ?_
  split
  · split
    · exact .pure fun _ spoken => spoken
    · exact .skip (fun _ => rfl) fun _ => .never (never_fail _ _)
  · exact .pure fun _ spoken => spoken

private theorem readRegexp_speaks (h : Handle) : Speaks (readRegexp h) := by
  refine .skip (fun _ => rfl) fun text => ?_
  split
  · exact .pure fun _ spoken => spoken
  · exact .never (never_fail _ _)

/-! ### Strings -/

private theorem jumpEnd_speaks (opening : Handle) (low dash high : Option Handle) :
    Speaks (jumpEnd opening low dash high) := by
  unfold jumpEnd
  refine .guard (never_unexpected _) (.bind (expect_speaks _) fun closing => .skip (fun _ => rfl) fun tokens => ?_)
  split
  · exact .guard (never_fail _ _) (.pure fun _ spoken => spoken)
  · exact .pure fun _ spoken => spoken

private theorem hexJump_speaks : Speaks hexJump := by
  refine .bind (expect_speaks _) fun opening => .bind (accept_speaks _)
    fun low => .bind (accept_speaks _) fun dash => ?_
  cases dash with
  | none => exact jumpEnd_speaks opening low none none
  | some dash => exact .bind (accept_speaks _) fun high => jumpEnd_speaks opening low (some dash) high

private theorem hexUnits_speaks : ∀ bound, Speaks (hexUnits bound)
  | 0 => .pure fun _ spoken => spoken
  | bound + 1 => by
    refine .skip (fun _ => rfl) fun next => ?_
    split
    · refine .bind advance_speaks fun token => .skip (fun _ => rfl) fun text => .guard (never_fail _ _) ?_
      exact .bind (hexUnits_speaks bound) fun _ => .pure fun _ spoken => spoken
    · exact .bind hexJump_speaks fun _ => .bind (hexUnits_speaks bound) fun _ => .pure fun _ spoken => spoken
    · refine .bind advance_speaks fun opening =>
        .bind (separated_speaks (.bind (hexUnits_speaks bound) fun units => ?_) bound) fun alternatives => ?_
      · exact .ite (fun _ => .never (never_unexpected _)) fun _ => .pure fun _ spoken => spoken
      · refine .guard (never_unexpected _) (.bind (expect_speaks _) fun closing => ?_)
        exact .bind (hexUnits_speaks bound) fun _ => .pure fun _ spoken => spoken
    · exact .pure fun _ spoken => spoken

private theorem hexString_speaks : Speaks hexString := by
  refine .bind (expect_speaks _) fun opening => .skip (fun _ => rfl) fun bound =>
    .bind (hexUnits_speaks bound) fun units => ?_
  refine .guard (never_unexpected _) (.bind (expect_speaks _) fun closing => .skip (fun _ => rfl) fun tokens => ?_)
  exact .bind (breakAfter_speaks _ _) fun _ => .pure fun _ spoken => spoken

private theorem xorKey_speaks (token : Handle) : Speaks (xorKey token) := by
  refine .skip (fun _ => rfl) fun tokens => ?_
  split
  · exact .ite (fun _ => .pure fun _ spoken => spoken) fun _ => .never (never_fail _ _)
  · exact .never (never_fail _ _)

private theorem xorModifier_speaks (first : Handle) : Speaks (xorModifier first) := by
  refine .bind (accept_speaks _) fun opening => ?_
  cases opening with
  | none => exact .pure fun _ spoken => spoken
  | some opening =>
    refine .bind (expect_speaks _) fun token => .bind (xorKey_speaks token)
      fun low => .bind (accept_of _) fun dash => ?_
    have rest (high : UInt8) : Speaks (do
        let closing ← expect .closeParen
        return (ModifierKind.xor (some (low, high)), closing)) := .bind (expect_speaks _) fun _ =>
          .pure fun _ spoken => spoken
    cases dash with
    | none => exact .consider _ (fun _ known => known.2) (rest low)
    | some dash =>
      refine .consider _ (fun s known => ⟨known.1 dash rfl, known.2⟩)
        (.bind (refine_speaks (fun _ => id) _) fun _ => ?_)
      refine .bind (expect_speaks _) fun token' => .bind (xorKey_speaks token') fun high => ?_
      exact .guard (never_fail _ _) (rest high)

private theorem alphabet_speaks (first : Handle) : Speaks (alphabet first) := by
  refine .bind (accept_speaks _) fun opening => ?_
  cases opening with
  | none => exact .pure fun _ spoken => spoken
  | some opening =>
    refine .bind (expect_speaks _) fun token => .bind (checkEscapes_speaks token) fun _ => .skip (fun _ => rfl)
      fun tokens => ?_
    exact .guard (never_fail _ _) (.bind (expect_speaks _) fun closing => .pure fun _ spoken => spoken)

private theorem modifier_speaks (kind : TokenKind) : Ensures (fun s => Next kind s ∧ s.Spoken)
    (modifier kind) fun _ => State.Spoken := by
  refine .bind advance_of fun first => ?_
  have done {m : StringModifier} : Ensures (fun s => Of kind first s ∧ s.Spoken) (pure m : Parse StringModifier)
      fun _ => State.Spoken :=
    .pure fun _ known => known.2
  dsimp only
  split
  · exact done
  · exact done
  · exact done
  · exact done
  · exact .bind (refine_speaks (fun _ => id) _) fun _ => .pure fun _ spoken => spoken
  · exact .consider _ (fun _ known => known.2) (.bind (xorModifier_speaks first) fun _ => .pure fun _ spoken => spoken)
  · exact .consider _ (fun _ known => known.2) (.bind (alphabet_speaks first) fun _ => .pure fun _ spoken => spoken)
  · exact .consider _ (fun _ known => known.2) (.bind (alphabet_speaks first) fun _ => .pure fun _ spoken => spoken)
  · exact .never (never_unexpected _)

private theorem checkModifier_speaks (content : StringContent) (before : List StringModifier) (m : StringModifier) :
    Speaks (checkModifier content before m) := by
  refine .guard (never_fail _ _) (forM_speaks (fun other => ?_) before)
  exact .ite (fun _ => .never (never_fail _ _)) fun _ => .ite (fun _ => .never (never_fail _ _)) fun _ => .pure
    fun _ spoken => spoken

private theorem modifiers_speaks (content : StringContent) : ∀ bound before, Speaks (modifiers content bound before)
  | 0, before => .pure fun _ spoken => spoken
  | bound + 1, before => by
    refine .look (fun _ => rfl) fun next => ?_
    cases next with
    | none => exact .pure fun _ known => known.2
    | some kind =>
      refine .ite (fun _ => .bind (modifier_speaks kind) fun m => ?_) fun _ => .pure fun _ known => known.2
      exact .bind (checkModifier_speaks content before m) fun _ => modifiers_speaks content bound _

private theorem stringContent_speaks : Speaks stringContent := by
  refine .skip (fun _ => rfl) fun next => ?_
  split
  · exact .bind advance_speaks fun token => .bind (checkEscapes_speaks token) fun _ => .pure fun _ spoken => spoken
  · exact .bind hexString_speaks fun string => .pure fun _ spoken => spoken
  · exact .bind advance_speaks fun token => .bind (readRegexp_speaks token) fun _ => .pure fun _ spoken => spoken
  · exact .never (never_unexpected _)

private theorem stringDefinition_speaks : Speaks stringDefinition := by
  refine .bind (expect_of _) fun name => .bind (refine_speaks (fun _ => id) _) fun _ => .bind (expect_speaks _)
    fun assign => ?_
  refine .bind stringContent_speaks fun content => .skip (fun _ => rfl) fun bound => ?_
  exact .bind (modifiers_speaks content bound []) fun modifiers => .pure fun _ spoken => spoken

private theorem addString_speaks : Speaks addString := by
  refine .bind stringDefinition_speaks fun string => .skip (fun _ => rfl) fun id => .skip (fun _ => rfl) fun s => ?_
  refine .ite (fun _ => .modify fun _ spoken => spoken) fun _ => ?_
  split
  · exact .modify fun _ spoken => spoken
  · exact .never (never_fail _ _)

private theorem stringSection_speaks : Speaks stringSection := by
  refine .bind (expect_speaks _) fun keyword => .bind (expect_speaks _) fun colon => .skip (fun _ => rfl) fun next => ?_
  refine .guard (never_unexpected _) (.skip (fun _ => rfl) fun bound => ?_)
  exact .bind (itemsWhile_speaks addString_speaks bound) fun _ => .pure fun _ spoken => spoken

private theorem optionalStrings_speaks : Speaks stringSection? :=
  .skip (fun _ => rfl) fun _ => .ite (fun _ => .bind stringSection_speaks fun _ => .pure fun _ spoken => spoken)
    fun _ => .pure fun _ spoken => spoken

/-! ### Modifiers and tags -/

private theorem ruleModifiers_speaks : ∀ bound before, Speaks (ruleModifiers bound before)
  | 0, before => .pure fun _ spoken => spoken
  | bound + 1, before => by
    refine .skip (fun _ => rfl) fun next => ?_
    cases next with
    | none => exact .pure fun _ spoken => spoken
    | some kind =>
      refine .ite (fun _ => .bind advance_speaks fun token => .ite (fun _ => ?_) fun _ => ?_) fun _ => .pure
        fun _ spoken => spoken
      · exact .skip (fun _ => rfl) fun _ => .never ((never_fail _ _).bind _)
      · exact ruleModifiers_speaks bound _

private theorem tagsAfter_speaks : ∀ bound before, Speaks (tagsAfter bound before)
  | 0, before => .pure fun _ spoken => spoken
  | bound + 1, before => by
    refine .look (fun _ => rfl) fun next => .ite (fun same => ?_) fun _ => .pure fun _ known => known.2
    refine .bind (.consider _ (fun s known => ⟨known.1.trans (beq_iff_eq.mp same), known.2⟩) advance_of) fun token => ?_
    refine .bind (refine_speaks (fun _ => id) _) fun _ => .skip (fun _ => rfl) fun tokens => ?_
    exact .guard (never_fail _ _) (tagsAfter_speaks bound _)

private theorem tags_speaks : Speaks tags := by
  refine .bind (accept_speaks _) fun colon => ?_
  cases colon with
  | none => exact .pure fun _ spoken => spoken
  | some colon =>
    refine .skip (fun _ => rfl) fun bound => .bind (tagsAfter_speaks bound []) fun tags => ?_
    exact .guard (never_unexpected _) (.pure fun _ spoken => spoken)

/-! ### Numbers with a sign -/

variable {l : Ledger} {roles : List Role} {others : List Handle}

theorem nat_firm (n : Nat) : Firm n.repr := by
  have text : n.repr.toList = Nat.toDigits 10 n := by rw [Nat.repr_eq_ofList_toDigits, String.toList_ofList]
  obtain ⟨c, last⟩ := Option.isSome_iff_exists.mp
    (List.getLast?_isSome.mpr (Nat.toDigits_ne_nil : Nat.toDigits 10 n ≠ []))
  have digit : c.isDigit = true := Nat.isDigit_of_mem_toDigits (by decide) (by decide) (List.mem_of_getLast? last)
  exact ⟨c, text ▸ last, Text.black_digit digit⟩

theorem int_firm (i : Int64) : Firm (Literal.ofInt i).text := by
  show Firm i.toInt.repr
  rw [Int.repr_eq_if]
  split_ifs
  · exact nat_firm _
  · exact (nat_firm _).behind "-"

private theorem negated_firm {literal negated : Literal} (done : negated? literal = some negated)
    (firm : Firm literal.text) : Firm negated.text := by
  unfold negated? at done
  split at done
  · dsimp only at done
    split at done
    next text written =>
      cases done
      have same : literal.text = text := by rw [Literal.text, written]
      show Firm ("-" ++ text)
      exact (same ▸ firm).behind "-"
    · cases done
      exact int_firm _
  · cases done

private theorem negativeNumber_speaks : Ensures (fun s => (s.source.rest[1]?.bind s.source.tokens.get?).map (·.kind) =
    some .integer ∧ s.Spoken ∧ Linking l roles others s) negativeNumber fun _ => State.Spoken := by
  refine .bind (m := fun minus s => Next .integer s ∧ s.Spoken ∧ Linking l roles (minus :: others) s) ?_ fun minus => ?_
  · rintro s minus s' done ⟨second, spoken, link⟩
    have link' := advance_ensures s minus s' done link
    obtain ⟨rest, read, rfl⟩ := advance_done done
    exact ⟨by simpa [Next, read] using second, spoken, link'⟩
  refine .bind (m := fun value s => Of .integer value s ∧ s.Spoken ∧ Linking l roles (value :: minus :: others) s) ?_
    fun value => ?_
  · rintro s value s' done ⟨next, spoken, link⟩
    obtain ⟨kind, spoken'⟩ := advance_of s value s' done ⟨next, spoken⟩
    exact ⟨kind, spoken', advance_ensures s value s' done link⟩
  refine .look (fun _ => rfl) fun tokens => ?_
  dsimp only
  split
  · exact .never (never_fail _ _)
  next negated found =>
    refine .bind (m := fun _ s => s.Spoken ∧ Linking l roles (value :: minus :: others) s) ?_ fun _ => ?_
    · rintro s u s' done ⟨same, ⟨a, stored, kind⟩, spoken, link⟩
      have link' := modify_ensures (fun _ _ => negated_plain found) s u s' done link
      obtain ⟨b, held, plain⟩ := (link.loose value (by simp)).plain
      obtain rfl := Option.some.inj (stored.symm.trans held)
      have firm : Firm a.literal.text := by
        have fits := spoken value a stored plain
        rw [shown, kind] at fits
        exact fits
      have firm' : Firm negated.text := by
        rw [← same, stored] at found
        exact negated_firm found firm
      cases done
      exact ⟨spoken.modify fun c _ _ => TokenKind.fits_of_firm (Lexer.writtenAs_firm _ firm') _, link'⟩
    · rintro s h s' done ⟨spoken, link⟩
      cases (dropMinus_run minus value s).symm.trans done
      cases erased : s.source.tokens.eraseOne minus with
      | error e => exact spoken
      | ok left =>
        have loose := link.loose minus (by simp)
        obtain ⟨change, gone⟩ :=
          link.sound.eraseOne_butFor link.distinct loose.own loose.bare (link.unnamed (by simp)) erased
        intro k a stored plain
        by_cases same : k = minus
        · cases (same ▸ gone).symm.trans stored
        · exact spoken k a ((change.others k same).symm.trans stored) plain

private theorem metaValue_speaks :
    Ensures (fun s => s.Spoken ∧ Linking l roles others s) metaValue fun _ => State.Spoken := by
  refine .skip (fun _ => rfl) fun next => ?_
  split
  · exact .consider _ (fun _ known => known.1)
      (.bind advance_speaks fun token => .bind (checkEscapes_speaks token) fun _ => .pure fun _ spoken => spoken)
  · exact .consider _ (fun _ known => known.1) advance_speaks
  · exact .consider _ (fun _ known => known.1) advance_speaks
  · refine .look (fun _ => rfl) fun second => .ite (fun same => ?_) fun _ => .never (never_unexpected _)
    exact .consider _ (fun s known => ⟨known.1.trans (beq_iff_eq.mp same), known.2⟩) negativeNumber_speaks
  · exact .never (never_unexpected _)

private theorem refine_linked {kind : TokenKind} {h : Handle}
    (firm : ∀ text, kind.Fits (TokenStream.writtenAs kind text) → Firm text)
    (other : TokenKind) :
    Ensures (fun s => (Of kind h s ∧ s.Spoken) ∧ Linking l roles (h :: others) s) (refine h other) fun _ s =>
      s.Spoken ∧ Linking l roles (h :: others) s :=
  .both (refine_speaks firm other) (modify_ensures fun _ own => own)

private theorem metaEntry_speaks :
    Ensures (fun s => s.Spoken ∧ Linking l roles others s) metaEntry fun _ => State.Spoken := by
  refine .bind (.both (expect_of _) (expect_ensures _)) fun key => ?_
  refine .bind (refine_linked (fun _ => id) _) fun _ => ?_
  refine .bind (.both (expect_speaks _) (expect_links _).passes) fun assign => ?_
  exact .bind metaValue_speaks fun value => .pure fun _ spoken => spoken

private theorem metaEntries_speaks {starts : TokenKind → Bool} : ∀ bound,
    Ensures (fun s => s.Spoken ∧ Linking l roles others s) (itemsWhile starts metaEntry bound) fun _ => State.Spoken
  | 0 => .pure fun _ known => known.1
  | bound + 1 => by
    refine .skip (fun _ => rfl) fun next => .ite (fun _ => ?_) fun _ => .pure fun _ known => known.1
    refine .bind (m := fun _ s => s.Spoken ∧ Linking l roles others s) (fun s a s' done known => ?_) fun _ => ?_
    · exact ⟨metaEntry_speaks s a s' done known, Links.passes metaEntry_links s a s' done known.2⟩
    · exact .bind (metaEntries_speaks bound) fun _ => .pure fun _ spoken => spoken

private theorem optionalMetas_speaks :
    Ensures (fun s => s.Spoken ∧ Linking l roles others s) metaSection? fun _ => State.Spoken := by
  refine .skip (fun _ => rfl) fun next => .ite (fun _ => .bind ?_ fun _ => .pure fun _ spoken => spoken) fun _ => .pure
    fun _ known => known.1
  refine .bind (.both (expect_speaks _) (expect_links _).passes) fun keyword => ?_
  refine .bind (.both (expect_speaks _) (expect_links _).passes) fun colon => .skip (fun _ => rfl) fun bound => ?_
  exact .bind (metaEntries_speaks bound) fun _ => .pure fun _ spoken => spoken

/-! ### Rules -/

private theorem ruleHead_speaks :
    Ensures (fun s => s.Spoken ∧ Linking l roles others s) ruleHead fun _ => State.Spoken := by
  refine .skip (fun _ => rfl) fun bound => ?_
  refine .bind (.both (ruleModifiers_speaks bound []) (ruleModifiers_links bound []).passes) fun modifiers => ?_
  refine .bind (.both (expect_speaks _) (expect_links _).passes) fun keyword => ?_
  refine .bind (.both (expect_of _) (expect_ensures _)) fun name => ?_
  refine .bind (refine_linked (fun _ => id) _) fun _ => ?_
  refine .skip (fun _ => rfl) fun text => .skip (fun _ => rfl)
    fun _ => .ite (fun _ => .never (.bind (never_fail _ _) _)) fun _ => ?_
  refine .bind (.both tags_speaks tags_links.passes) fun (tagColon, tags) => ?_
  refine .bind (.both (expect_of _) (expect_ensures _)) fun opening => ?_
  refine .bind (refine_linked (fun _ => id) _) fun _ => ?_
  refine .bind (m := fun _ s => s.Spoken ∧ Linking { l with strings := {} } roles (opening :: name :: others) s)
    (.modify ?_) fun _ => ?_
  · intro s ⟨spoken, link⟩
    exact ⟨spoken, link.restock (t := { s with strings := {}, scopes := [], stringLoops := 0 }) rfl rfl rfl rfl nofun⟩
  refine .bind optionalMetas_speaks fun (metaSection, metas) => .bind optionalStrings_speaks fun stringSection => ?_
  exact .bind (expect_speaks _) fun keyword' => .bind (expect_speaks _) fun colon => .pure fun _ spoken => spoken

/-- What is still to be read are words. -/
def State.Wordy (s : State) : Prop := ∀ h ∈ s.source.rest, ∀ a, s.source.tokens.get? h = some a →
    a.kind.isTrivia = false

variable {s between inner s' : State}

theorem State.Wordy.onward {given : List Handle} (wordy : s.Wordy) (apart : s.source.rest.Nodup)
    (onward : Onward [] given s s') : s'.Wordy := by
  intro h member a stored
  obtain ⟨waits, same⟩ := onward.get?_waiting apart member
  exact wordy h waits a (same.symm.trans stored)

private theorem Linking.spoken_onward {given : List Handle} (link : Linking l roles others s) (wordy : s.Wordy)
    (spoken : s.Spoken) (onward : Onward [] given s s')
    (texts : ∀ h, s'.source.tokens.text h = s.source.tokens.text h) : s'.Spoken := by
  obtain ⟨taken, rest, _, same⟩ := onward.read
  intro h a stored plain
  by_cases read : h ∈ taken
  · have waits : h ∈ s.source.rest := rest ▸ List.mem_append_left _ read
    obtain ⟨b, held, plain'⟩ := (link.loose h (List.mem_append_right _ waits)).plain
    have firm := TokenKind.firm_of_word (wordy h waits b held) (spoken h b held plain')
    rw [← text_shown held plain', ← texts h, text_shown stored plain] at firm
    exact TokenKind.fits_of_firm firm _
  · exact spoken h a ((same h (by simpa using read)).symm.trans stored) plain

private theorem Poised.rule_spoken {found : Rule} (poised : Poised l s) (wordy : s.Wordy) (spoken : s.Spoken)
    (run : Grammar.rule s = .ok (found, s')) : s'.Spoken := by
  obtain ⟨read, link⟩ := poised.accounted
  obtain ⟨head, s₁, began, run⟩ := bind_done run
  obtain ⟨condition, s₂, middle, run⟩ := bind_done run
  obtain ⟨strings, sighted, ready⟩ := ruleHead_ready link poised.unnamed poised.modules began
  have meant := condition_meant sighted s₁ condition s₂ middle ready
  obtain ⟨_, _, texts⟩ := ruleTail_ready head condition s₂ found s' run meant.ready
  obtain ⟨_, link₁⟩ := ready.linking
  have begun : Onward [] [head.keyword] s s₁ := ruleHead_calm.onward s head s₁ began link
  have tail : Calm [] (Grammar.condition >>= ruleTail head) fun _ => [] :=
    .bind condition_calm fun condition => ruleTail_calm (fun _ _ => List.nil_subset _) condition
  have ended : (Grammar.condition >>= ruleTail head) s₁ = .ok (found, s') := by
    show (Grammar.condition s₁ >>= fun result => ruleTail head result.1 result.2) = _
    rw [middle]
    exact run
  exact link₁.spoken_onward (wordy.onward link.unread_nodup begun) (ruleHead_speaks s head s₁ began ⟨spoken, link⟩)
    (tail.onward s₁ found s' ended) texts

/-! ### Files -/

/-- A source that was taken apart: its tokens fit, and words among them are to be read. -/
structure Source.Taken (source : Source) : Prop where
  sound : source.tokens.Sound
  fits : ∀ entry ∈ source.tokens.chain.entries, entry.2.kind.Fits (shown entry.2)
  words : ∀ h ∈ source.rest, ∃ a, (h, a) ∈ source.tokens.chain.entries ∧ a.kind.isTrivia = false

theorem sourceOf_taken {id : ChainId} {path : Option String} {content : Bytes} {source : Source}
    (done : sourceOf id path content = .ok source) : source.Taken := by
  refine sourceOf_holds done Source.Taken ⟨TokenStream.sound_empty id, by simp [TokenStream.empty], nofun⟩ ?_
  intro words found token member stream rest taken
  obtain ⟨_, entries, _⟩ := taken.sound.chain.insertAt (List.append_nil stream.chain.entries).symm token
  have parts : (stream.push token).2.chain.entries = stream.chain.entries ++ [((stream.push token).1, token)] := entries
  have older (h : Handle) (waits : h ∈ rest) :
      ∃ a, (h, a) ∈ (stream.push token).2.chain.entries ∧ a.kind.isTrivia = false := by
    obtain ⟨a, stored, word⟩ := taken.words h (List.mem_reverse.mpr waits)
    exact ⟨a, parts ▸ List.mem_append_left _ stored, word⟩
  refine ⟨(taken.sound.push token).1, fun entry stored => ?_, fun h waits => ?_⟩
  · rcases List.mem_append.mp (parts ▸ stored : entry ∈ stream.chain.entries ++ _) with old | new
    · exact taken.fits entry old
    · obtain rfl := List.mem_singleton.mp new
      exact Lexer.tokensFrom_fit found token member
  · have waits : h ∈ if token.kind.isTrivia then rest else (stream.push token).1 :: rest := List.mem_reverse.mp waits
    split_ifs at waits with trivia
    · exact older h waits
    · rcases List.mem_cons.mp waits with rfl | old
      · exact ⟨token, by simp [parts], by simpa using trivia⟩
      · exact older h old

theorem Source.Taken.spoken {source : Source} {id : ChainId} (taken : source.Taken) (fresh : source.Fresh id) :
    source.tokens.Spoken := by
  intro h a stored _
  have own : h.chain = source.tokens.chain.id := by
    simpa [fresh.lone.ids] using TokenStream.mem_ids_of_get? stored
  rw [TokenStream.get?_top _ own] at stored
  exact taken.fits _ ((taken.sound.chain.get?_eq_some _ _).mp stored)

private theorem Source.Taken.wordy {source : Source} {id : ChainId} (taken : source.Taken) (fresh : source.Fresh id) :
    ∀ h ∈ source.rest, ∀ a, source.tokens.get? h = some a → a.kind.isTrivia = false := by
  intro h waits a stored
  obtain ⟨b, held, word⟩ := taken.words h waits
  rw [TokenStream.get?_top _ ((fresh.chain h waits).trans fresh.named.symm),
    (taken.sound.chain.get?_eq_some _ _).mpr held] at stored
  exact Option.some.inj stored ▸ word

private theorem directive_spoken {d : Directive} (wordy : s.Wordy) (spoken : s.Spoken)
    (run : directive s = .ok (d, between)) : between.Wordy ∧ between.Spoken := by
  obtain ⟨rest, split, rfl⟩ := directive_done run
  refine ⟨fun h member => wordy h ?_, spoken⟩
  rw [split]
  exact List.mem_cons_of_mem _ (List.mem_cons_of_mem _ member)

theorem Course.spoken {pieces : List Piece} (course : Course s pieces s') :
    ∀ {l}, Poised l s → s.Wordy → s.Spoken → s'.Spoken := by
  induction course with
  | done s => exact fun _ _ spoken => spoken
  | @imported s between s' pieces run rest ih =>
    intro l poised wordy spoken
    have poised' := (poised.imported run).2
    obtain ⟨_, _, _, _, _, _, _, waits, _, _, _, _, _, rfl⟩ := importDirective_done run
    exact ih poised' (fun h member => wordy h (by simp [waits, show h ∈ _ from member])) spoken
  | @ruled s between s' pieces found run rest ih =>
    intro l poised wordy spoken
    obtain ⟨_, link⟩ := poised.accounted
    have onward := rule_calm.onward s found between run link
    have wordy' : between.Wordy := wordy.onward link.unread_nodup onward
    have spoken' : between.Spoken := poised.rule_spoken wordy spoken run
    exact ih (poised.ruled run).2 wordy' spoken'
  | @skipped s between s' pieces d _ run located shut again rest ih =>
    intro l poised wordy spoken
    obtain ⟨wordy', spoken'⟩ := directive_spoken wordy spoken run
    exact ih (poised.directive run).2 wordy' spoken'
  | @opened s between inner s' below pieces d place content source run opens inside rest ihInside ihRest =>
    intro l poised wordy spoken
    have opening := poised.opening run opens
    obtain ⟨within, poised'⟩ := inside.forth opening.inner
    have taken := sourceOf_taken opens.lexed
    have fresh := sourceOf_fresh opens.lexed
    have spokenInner := ihInside opening.inner (taken.wordy fresh) (taken.spoken fresh)
    have joined := opening.joined poised'
    have unread := opening.unread poised'
    obtain ⟨wordyOuter, spokenOuter⟩ := directive_spoken wordy spoken run
    refine ihRest (opening.rejoin inside within poised').2.2 (fun h waits a stored => ?_) fun h a stored plain => ?_
    · exact wordyOuter h waits a ((unread h waits).symm.trans stored)
    · rcases (joined.ids h.chain).mp (TokenStream.mem_ids_of_get? stored) with here | there
      · exact spokenOuter h a ((joined.outer h here).symm.trans stored) plain
      · exact spokenInner h a ((joined.inner h there).symm.trans stored) plain

end Grammar

/-- Tokens of a file that was read have texts that fit their kinds. -/
theorem RuleFile.Read.spoken {file : RuleFile} (read : file.Read) : file.tokens.Spoken := by
  obtain ⟨_, _, _, _, _, _, _, found, done⟩ := read.lexed
  have fresh := Grammar.sourceOf_fresh found
  have taken := Grammar.sourceOf_taken found
  obtain ⟨_, _, course, rfl⟩ := Grammar.readSource_course done
  exact course.spoken (fresh.poised (Grammar.sourceOf_untouched found)) (taken.wordy fresh) (taken.spoken fresh)

end YaraRules
