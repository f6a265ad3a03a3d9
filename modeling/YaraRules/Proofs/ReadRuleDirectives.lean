import YaraRules.Proofs.ReadDirectives

/-! Directives while a rule is read. The head of a rule reads none either, although tokens are
taken out where a number has a sign; so those that wait in front of a rule still wait
behind it. -/

namespace YaraRules.Grammar

variable {α : Type} {free : List Handle} {kind : TokenKind}

/-! ### Hex strings and modifiers -/

private theorem jumpEnd_shuns (opening : Handle) (low dash high : Option Handle) :
    Shuns free (jumpEnd opening low dash high) fun _ => [] := by
  unfold jumpEnd
  refine .guard (never_unexpected _) (.bind (expect_shuns rfl) fun closing => .skip (fun _ => rfl) fun tokens => ?_)
  dsimp only
  split
  · exact .guard (never_fail _ _) (.pure (by simp))
  · exact .pure (by simp)

private theorem hexJump_shuns : Shuns free hexJump fun _ => [] := by
  refine .bind (expect_shuns rfl) fun opening => .bind (accept_shuns rfl)
    fun low => .bind (accept_shuns rfl) fun dash => ?_
  cases dash with
  | some _ => exact .bind (accept_shuns rfl) fun high => jumpEnd_shuns opening low _ high
  | none => exact jumpEnd_shuns opening low none none

private theorem hexUnits_shuns : ∀ {free} bound, Shuns free (hexUnits bound) fun _ => []
  | _, 0 => .pure (by simp)
  | _, bound + 1 => by
    refine .peek fun next => ?_
    split
    · refine .bind (advance_shuns rfl) fun token => .skip (fun _ => rfl) fun text => .guard (never_fail _ _) ?_
      exact .bind (hexUnits_shuns bound) fun units => .pure (by simp)
    · exact .any (.bind hexJump_shuns fun jump => .bind (hexUnits_shuns bound) fun units => .pure (by simp))
    · have alternative {free : List Handle} : Shuns free (do
          let units ← hexUnits bound
          if units.isEmpty then unexpected "hex byte" else return units) fun _ => [] :=
        .bind (hexUnits_shuns bound) fun units => .ite (fun _ => .never (never_unexpected _)) fun _ => .pure (by simp)
      refine .bind (advance_shuns rfl) fun opening => .bind (separated_shuns rfl alternative bound)
        fun alternatives => ?_
      refine .guard (never_unexpected _) (.bind (expect_shuns rfl) fun closing => ?_)
      exact .bind (hexUnits_shuns bound) fun units => .pure (by simp)
    · exact .any (.pure (by simp))

private theorem hexString_shuns : Shuns free hexString fun _ => [] := by
  refine .bind (expect_shuns rfl) fun opening => .skip (fun _ => rfl) fun bound =>
    .bind (hexUnits_shuns bound) fun units => ?_
  refine .guard (never_unexpected _) (.bind (expect_shuns rfl) fun closing => .skip (fun _ => rfl) fun tokens => ?_)
  exact .bind (breakAfter_shuns _ (by simp)) fun _ => .pure (by simp)

private theorem xorKey_shuns (token : Handle) : Shuns free (xorKey token) fun _ => [] := by
  refine .skip (fun _ => rfl) fun tokens => ?_
  split
  · exact .ite (fun _ => .pure (by simp)) fun _ => .never (never_fail _ _)
  · exact .never (never_fail _ _)

private theorem xorModifier_shuns (first : Handle) : Shuns free (xorModifier first) fun _ => [] := by
  refine .bind (accept_shuns rfl) fun opening => ?_
  cases opening with
  | none => exact .pure (by simp)
  | some opening =>
    refine .bind (expect_shuns rfl) fun token => .bind (xorKey_shuns token)
      fun low => .bind (accept_shuns rfl) fun dash => ?_
    have rest {free : List Handle} (high : UInt8) : Shuns free (do
        let closing ← expect .closeParen
        return (ModifierKind.xor (some (low, high)), closing)) fun _ =>
          [] := .bind (expect_shuns rfl) fun _ => .pure (by simp)
    cases dash with
    | none => exact rest low
    | some dash =>
      refine .bind (refine_shuns rfl (by simp)) fun _ => .bind (expect_shuns rfl) fun token' => ?_
      exact .bind (xorKey_shuns token') fun high => .guard (never_fail _ _) (rest high)

private theorem alphabet_shuns (first : Handle) : Shuns free (alphabet first) fun _ => [] := by
  refine .bind (accept_shuns rfl) fun opening => ?_
  cases opening with
  | none => exact .pure (by simp)
  | some opening =>
    refine .bind (expect_shuns rfl) fun token => .bind (checkEscapes_shuns token) fun _ => .skip (fun _ => rfl)
      fun tokens => ?_
    exact .guard (never_fail _ _) (.bind (expect_shuns rfl) fun closing => .pure (by simp))

private theorem modifier_shuns (plain : isDirective kind = false) :
    ShunsAt (some kind) free (modifier kind) fun _ => [] := by
  refine .bind (advance_shuns plain) fun first => ?_
  dsimp only
  split
  · exact .pure (by simp)
  · exact .pure (by simp)
  · exact .pure (by simp)
  · exact .pure (by simp)
  · exact .bind (refine_shuns rfl (by simp)) fun _ => .pure (by simp)
  · exact .bind (xorModifier_shuns first) fun _ => .pure (by simp)
  · exact .bind (alphabet_shuns first) fun _ => .pure (by simp)
  · exact .bind (alphabet_shuns first) fun _ => .pure (by simp)
  · exact .never (never_unexpected _)

private theorem checkModifier_shuns (content : StringContent) (before : List StringModifier) (m : StringModifier) :
    Shuns free (checkModifier content before m) fun _ => [] := by
  refine .guard (never_fail _ _) (.forM (fun other => ?_) before)
  exact .ite (fun _ => .never (never_fail _ _)) fun _ => .ite (fun _ => .never (never_fail _ _))
    fun _ => .pure (by simp)

private theorem modifiers_shuns (content : StringContent) :
    ∀ {free} bound before, Shuns free (modifiers content bound before) fun _ => []
  | _, 0, _ => .pure (by simp)
  | _, bound + 1, before => by
    refine .peek fun next => ?_
    cases next with
    | none => exact .any (.pure (by simp))
    | some kind =>
      refine .ite (fun starts => ?_) fun _ => .any (.pure (by simp))
      have plain : isDirective kind = false := by cases kind <;> first | rfl | cases starts
      exact .bind (modifier_shuns plain) fun m => .bind (checkModifier_shuns content before m)
        fun _ => modifiers_shuns content bound _

/-! ### Strings -/

private theorem stringContent_shuns : Shuns free stringContent fun _ => [] := by
  refine .peek fun next => ?_
  split
  · exact .bind (advance_shuns rfl) fun token => .bind (checkEscapes_shuns token) fun _ => .pure (by simp)
  · exact .any (.bind hexString_shuns fun string => .pure (by simp))
  · exact .bind (advance_shuns rfl) fun token => .bind (readRegexp_shuns token) fun _ => .pure (by simp)
  · exact .any (.never (never_unexpected _))

private theorem stringDefinition_shuns : Shuns free stringDefinition fun _ => [] := by
  refine .bind (expect_shuns rfl) fun id => .bind (refine_shuns rfl (by simp)) fun _ => .bind (expect_shuns rfl)
    fun assign => ?_
  refine .bind stringContent_shuns fun content => .skip (fun _ => rfl) fun bound => ?_
  exact .bind (modifiers_shuns content bound []) fun modifiers => .pure (by simp)

private theorem addString_shuns : Shuns free addString fun _ => [] := by
  refine .bind stringDefinition_shuns fun string => .skip (fun _ => rfl) fun id => .skip (fun _ => rfl) fun s => ?_
  refine .ite (fun _ => .aside fun _ => rfl) fun _ => ?_
  split
  · exact .aside fun _ => rfl
  · exact .never (never_fail _ _)

private theorem stringSection_shuns : Shuns free stringSection fun _ => [] := by
  refine .bind (expect_shuns rfl) fun keyword => .bind (expect_shuns rfl) fun colon =>
    .skip (fun _ => rfl) fun next => ?_
  refine .guard (never_unexpected _) (.skip (fun _ => rfl) fun bound => ?_)
  exact .bind (itemsWhile_shuns addString_shuns bound) fun _ => .pure (by simp)

private theorem optionalStrings_shuns : Shuns free stringSection? fun _ => [] :=
  .skip (fun _ => rfl) fun _ => .ite (fun _ => .bind stringSection_shuns fun _ => .pure (by simp))
    fun _ => .pure (by simp)

/-! ### Modifiers and tags -/

private theorem ruleModifiers_shuns : ∀ {free} bound before, Shuns free (ruleModifiers bound before) fun _ => []
  | _, 0, _ => .pure (by simp)
  | _, bound + 1, before => by
    refine .peek fun next => ?_
    cases next with
    | none => exact .any (.pure (by simp))
    | some kind =>
      refine .ite (fun starts => ?_) fun _ => .any (.pure (by simp))
      have plain : isDirective kind = false := by cases kind <;> first | rfl | cases starts
      refine .bind (advance_shuns plain) fun token => .ite (fun _ => ?_) fun _ => (ruleModifiers_shuns bound _)
      exact .skip (fun _ => rfl) fun _ => .never ((never_fail _ _).bind _)

private theorem tagsAfter_shuns : ∀ {free} bound before, Shuns free (tagsAfter bound before) fun _ => []
  | _, 0, _ => .pure (by simp)
  | _, bound + 1, before => by
    refine .peek fun next => .ite (fun same => ?_) fun _ => .any (.pure (by simp))
    obtain rfl : next = some .identifier := by simpa using same
    refine .bind (advance_shuns rfl) fun token => .bind (refine_shuns rfl (by simp)) fun _ => .skip (fun _ => rfl)
      fun tokens => ?_
    exact .guard (never_fail _ _) (tagsAfter_shuns bound _)

private theorem tags_shuns : Shuns free tags fun _ => [] := by
  refine .bind (accept_shuns rfl) fun colon => ?_
  cases colon with
  | none => exact .pure (by simp)
  | some colon =>
    refine .skip (fun _ => rfl) fun bound => .bind (tagsAfter_shuns bound []) fun tags => ?_
    exact .guard (never_unexpected _) (.pure (by simp))

/-! ### Numbers with a sign -/

variable {l : Ledger} {roles : List Role} {spare : List Handle} {start : State}

theorem Shuns.beside {step : Parse α} {row : α → List Handle} {m : α → State → Prop} (shuns : Shuns free step row)
    (links : Ensures (Linking l roles spare) step m) : Ensures (fun s => Intact start free s ∧
    Linking l roles spare s) step fun a s => Intact start (row a ++ free) s ∧ m a s :=
  fun s a s' done before => ⟨shuns start s a s' done before.1, links s a s' done before.2⟩

theorem Intact.erase {s : State} {minus : Handle} {tokens : TokenStream} (intact : Intact start free s)
    (known : minus ∈ free) (link : Linking l roles (minus :: spare) s)
    (erased : s.source.tokens.eraseOne minus = .ok tokens) : Intact start free (s.onTokens fun _ => tokens) := by
  have loose := link.loose minus (by simp)
  obtain ⟨change, gone⟩ := link.sound.eraseOne_butFor link.distinct loose.own loose.bare (link.unnamed (by simp)) erased
  have others {k : Handle} (apart : k ≠ minus) : tokens.get? k = s.source.tokens.get? k := change.others k apart
  exact { intact with
    same := fun k apart => by
      obtain ⟨read, spent⟩ := intact.spent minus known
      refine (others ?_).trans (intact.same k apart)
      rintro rfl
      exact apart.elim spent fun outside => outside read
    old := fun k b stored directs => by
      have stored : tokens.get? k = some b := stored
      have apart : k ≠ minus := fun same => by cases gone.symm.trans (same ▸ stored)
      exact intact.old k b ((others apart).symm.trans stored) directs
    order := by
      have same := TokenStream.id_of_ids change.ids
      exact (link.sound.eraseOne_handles link.distinct loose.own same erased).trans intact.order }

private theorem negativeNumber_intact :
    Ensures (fun s => (s.source.rest[1]?.bind s.source.tokens.get?).map (·.kind) = some .integer ∧ Next .minus s ∧
    Intact start free s ∧ Linking l roles spare s) negativeNumber fun _ => Intact start free := by
  rintro s value s' done ⟨second, next, intact, link⟩
  obtain ⟨minus, s₁, first, run⟩ := bind_done done
  have intact₁ := advance_shuns rfl start s minus s₁ first ⟨next, intact⟩
  have link₁ := advance_ensures s minus s₁ first link
  obtain ⟨value, s₂, read, run⟩ := bind_done run
  have integer : Next .integer s₁ := by
    obtain ⟨rest, whole, rfl⟩ := advance_done first
    simpa [Next, whole] using second
  have intact₂ := advance_shuns rfl start s₁ value s₂ read ⟨integer, intact₁⟩
  have link₂ := advance_ensures s₁ value s₂ read link₁
  obtain ⟨_, _, looked, run⟩ := bind_done run
  cases looked
  dsimp only at run
  cases found : negated? (((s₂.source.tokens.get? value).map (·.literal)).getD (.ofInt 0)) with
  | none =>
    simp only [found] at run
    exact absurd run (never_fail _ _ _ _ _)
  | some negated =>
    simp only [found] at run
    obtain ⟨_, s₃, set, run⟩ := bind_done run
    have intact₃ := setLiteral_shuns negated (h := value) (by simp) start s₂ _ s₃ set intact₂
    have link₃ := modify_ensures (fun _ _ => negated_plain found) s₂ _ s₃ set link₂
    obtain ⟨_, _, looked, run⟩ := bind_done run
    cases looked
    have known : minus ∈ [] ++ ([value] ++ ([minus] ++ free)) := by simp
    cases erased : s₃.source.tokens.eraseOne minus with
    | error e =>
      simp only [erased] at run
      cases run
      exact intact₃.fewer (by simp)
    | ok tokens =>
      simp only [erased] at run
      cases run
      exact (intact₃.erase known (link₃.fewer (List.sublist_cons_self _ _)) erased).fewer (by simp)

private theorem metaValue_intact :
    Ensures (fun s => Intact start free s ∧ Linking l roles spare s) metaValue fun _ => Intact start free := by
  have plain {next : Option TokenKind} {step : Parse Handle} {row : Handle → List Handle}
      (shuns : ShunsAt next free step row) :
      Ensures (fun s => (s.source.rest[0]?.bind s.source.tokens.get?).map (·.kind) = next ∧ Intact start free s ∧
        Linking l roles spare s) step
        fun _ => Intact start free :=
    .consider _ (fun s known => ⟨known.1, known.2.1⟩) (.weaken (shuns start) fun _ _ intact =>
      intact.fewer (List.subset_append_right _ _))
  refine .look (fun _ => rfl) fun next => ?_
  split
  · exact plain (.bind (advance_shuns rfl) fun token => .bind (checkEscapes_shuns token) fun _ =>
      .pure (List.nil_subset _))
  · exact plain (advance_shuns rfl)
  · exact plain (advance_shuns rfl)
  · refine .look (fun _ => rfl) fun second => .ite (fun same => ?_) fun _ => .never (never_unexpected _)
    obtain rfl : second = some .integer := by simpa using same
    exact negativeNumber_intact
  · exact .never (never_unexpected _)

private theorem metaEntry_intact : Ensures (fun s => Intact start free s ∧ Linking l roles spare s) metaEntry
    fun _ s => Intact start free s ∧ Linking l roles spare s := by
  have alone : Ensures (fun s => Intact start free s ∧ Linking l roles spare s) metaEntry
      fun _ => Intact start free := by
    refine .bind ((expect_shuns rfl).beside (expect_ensures _)) fun key => ?_
    refine .bind ((refine_shuns (show isDirective .metaKey = false from rfl) (by simp)).beside
      (modify_ensures fun _ own => own)) fun _ => ?_
    refine .bind ((expect_shuns rfl).beside (expect_links _).passes) fun assign =>
      .bind metaValue_intact fun value => ?_
    exact .pure fun s intact => intact.fewer (by simp)
  exact fun s a s' done before => ⟨alone s a s' done before, metaEntry_links.passes s a s' done before.2⟩

private theorem metaEntries_intact {starts : TokenKind → Bool} :
    ∀ bound, Ensures (fun s => Intact start free s ∧ Linking l roles spare s)
    (itemsWhile starts metaEntry bound) fun _ => Intact start free
  | 0 => .pure fun _ known => known.1
  | bound + 1 =>
    .skip (fun _ => rfl) fun _ => .ite (fun _ => .bind metaEntry_intact fun _ =>
      .bind (metaEntries_intact bound) fun _ =>
    .pure fun _ intact => intact) fun _ => .pure fun _ known => known.1

private theorem optionalMetas_intact :
    Ensures (fun s => Intact start free s ∧ Linking l roles spare s) metaSection? fun _ => Intact start free := by
  refine .skip (fun _ => rfl) fun _ => .ite (fun _ => .bind (m := fun _ => Intact start free) ?_ fun _ =>
    .pure fun _ intact => intact)
    fun _ => .pure fun _ known => known.1
  refine .bind ((expect_shuns rfl).beside (expect_links _).passes) fun keyword => ?_
  refine .bind ((expect_shuns rfl).beside (expect_links _).passes) fun colon => .skip (fun _ => rfl) fun bound => ?_
  exact .bind (metaEntries_intact bound) fun _ => .pure fun _ intact => intact.fewer (by simp)

/-! ### Rules -/

private theorem ruleHead_intact :
    Ensures (fun s => Intact start [] s ∧ Linking l roles spare s) ruleHead fun _ => Intact start [] := by
  refine .skip (fun _ => rfl) fun bound => .bind
    ((ruleModifiers_shuns bound []).beside (ruleModifiers_links bound []).passes) fun modifiers => ?_
  refine .bind ((expect_shuns rfl).beside (expect_links _).passes) fun keyword =>
    .bind ((expect_shuns rfl).beside (expect_ensures _)) fun name => ?_
  refine .bind ((refine_shuns (show isDirective .ruleName = false from rfl) (by simp)).beside
    (modify_ensures fun _ own => own)) fun _ => ?_
  refine .skip (fun _ => rfl) fun text => .skip (fun _ => rfl)
    fun s => .ite (fun _ => .never ((never_fail _ _).bind _)) fun _ => ?_
  refine .bind (tags_shuns.beside tags_links.passes) fun (tagColon, tags) =>
    .bind ((expect_shuns rfl).beside (expect_ensures _)) fun opening => ?_
  refine .bind ((refine_shuns (show isDirective .ruleBegin = false from rfl) (by simp)).beside
    (modify_ensures fun _ own => own)) fun _ => ?_
  refine .bind (m := fun _ s => Intact start ([opening] ++ [name]) s ∧
    Linking { l with strings := {} } roles (opening :: name :: spare) s)
    (.modify fun s known => ?_) fun _ => ?_
  · have fewer : Intact start ([opening] ++ [name]) s := known.1.fewer (by simp)
    exact ⟨fewer.aside rfl,
      known.2.restock (t := { s with strings := {}, scopes := [], stringLoops := 0 }) rfl rfl rfl rfl nofun⟩
  refine .bind optionalMetas_intact fun (metaSection, metas) => .bind (optionalStrings_shuns start)
    fun stringSection => ?_
  refine .bind (expect_shuns rfl start) fun keyword' => .bind (expect_shuns rfl start) fun colon => .pure
    fun s intact => ?_
  exact intact.fewer (List.nil_subset _)

private theorem ruleTail_shuns (head : RuleHead) (condition : Expr) :
    Shuns free (ruleTail head condition) fun _ => [] := by
  refine .bind (expect_shuns rfl) fun closing => .bind (refine_shuns rfl (by simp))
    fun _ => .skip (fun _ => rfl) fun first => ?_
  refine .skip (fun _ => rfl) fun last => .skip (fun _ => rfl) fun text => .skip (fun _ => rfl) fun s => ?_
  exact .bind (.aside fun _ => rfl) fun _ => .pure (by simp)

/-- Directives that wait in front of a rule wait behind it as well. -/
theorem rule_intact : Ensures (fun s => Intact start [] s ∧ Linking l roles spare s) rule fun _ => Intact start [] :=
  .bind ruleHead_intact fun head => .bind (condition_shuns start) fun condition => ruleTail_shuns head condition start

end YaraRules.Grammar
