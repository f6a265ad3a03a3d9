import YaraRules.Proofs.ExprHandles
import YaraRules.Proofs.PairedReadings

/-! Elementary steps of two readings side by side: looking at the next token, reading it,
and changing a token that was read. -/

namespace YaraRules.Grammar

/-- A token that the grammar has not read yet. -/
structure Fresh (a : Token) : Prop where
  plain : TokenStream.Plain a
  free : isAnchor a.kind = false
  code : a.kind.isTrivia = false
  fixed : ∀ text, a.kind.fixedText? = some text → a.literal.text = text
  sigil : a.kind = .stringName → a.literal.text.toList.head? = some '$'

/-- Kinds of tokens that are written by the text of their literal and nothing else. -/
def isBare : TokenKind → Bool
  | .string | .stringCount | .stringOffset | .stringLength => false
  | _ => true

private theorem writtenAs_bare {kind : TokenKind} (bare : isBare kind = true) (text : String) :
    TokenStream.writtenAs kind text = text := by
  unfold TokenStream.writtenAs
  split <;> first | rfl | cases bare

theorem textOf_bare (x : TokenStream) {a : Token} (plain : TokenStream.Plain a) (bare : isBare a.kind = true) :
    x.textOf a = a.literal.text := by
  rw [x.textOf_plain plain, writtenAs_bare bare]

/-- What is left to read on both sides. The second reading ends before the brace that closes the rule. -/
inductive Aligned (c : Pairing) : List Handle → List Handle → Prop
  | nil : Aligned c [] []
  | cut {h : Handle} {rest : List Handle} : (c.lexed h).kind = .closeBrace → Aligned c (h :: rest) []
  | cons {h : Handle} {rest others : List Handle} : c.paired h → Aligned c rest others →
    Aligned c (h :: rest) (c.partner h :: others)

/-- Two readings have got to the same place. -/
structure Abreast (c : Pairing) (s t : State) : Prop where
  settings : t.settings = s.settings
  imports : t.imports = s.imports
  modules : ∀ i ∈ s.imports, i.imported.content.name = i.imported.name
  ruleNames : t.ruleNames = s.ruleNames
  named : ∀ entry ∈ s.ruleNames, c.Shares entry.2 ∧ ∀ a, s.source.tokens.get? entry.2 = some a →
    Anchored s.source.tokens entry.2 ∧ c.word entry.2 = entry.1
  strings : t.strings = s.strings
  defined : ∀ name d, s.strings.get? name = some d →
    c.Shares d.id ∧ Anchored s.source.tokens d.id ∧ c.word d.id = name
  scopes : t.scopes = s.scopes
  stringLoops : t.stringLoops = s.stringLoops
  tokens : Twins c s.source.tokens t.source.tokens
  rest : Aligned c s.source.rest t.source.rest
  unread : ∀ h ∈ s.source.rest, s.source.tokens.get? h = some (c.lexed h) ∧ Fresh (c.lexed h)
  nodup : s.source.rest.Nodup

/-- Both readings have read the same tokens, and the first has changed no others. -/
structure Advanced (c : Pairing) (s t s' t' : State) (used : List Handle) : Prop where
  abreast : Abreast c s' t'
  took : s.source.rest = used ++ s'.source.rest
  took' : t.source.rest = used.map c.partner ++ t'.source.rest
  paired : ∀ h ∈ used, c.paired h
  frame : ∀ h, h ∉ used → s'.source.tokens.get? h = s.source.tokens.get? h

variable {c : Pairing} {s t s' t' s'' t'' : State}

namespace Advanced

theorem refl (abreast : Abreast c s t) : Advanced c s t s t [] :=
  ⟨abreast, rfl, rfl, fun _ member => (List.not_mem_nil member).elim, fun _ _ => rfl⟩

theorem trans {first last : List Handle} (one : Advanced c s t s' t' first) (two : Advanced c s' t' s'' t'' last) :
    Advanced c s t s'' t'' (first ++ last) where
  abreast := two.abreast
  took := by rw [one.took, two.took, List.append_assoc]
  took' := by rw [one.took', two.took', List.map_append, List.append_assoc]
  paired h member := (List.mem_append.mp member).elim (one.paired h) (two.paired h)
  frame h absent := by
    rw [List.mem_append, not_or] at absent
    rw [two.frame h absent.2, one.frame h absent.1]

theorem length {used : List Handle} (advanced : Advanced c s t s' t' used) :
    t.source.rest.length = used.length + t'.source.rest.length := by
  rw [advanced.took', List.length_append, List.length_map]

theorem length_first {used : List Handle} (advanced : Advanced c s t s' t' used) :
    s.source.rest.length = used.length + s'.source.rest.length := by
  rw [advanced.took, List.length_append]

end Advanced

/-- Both readings have changed the same tokens and read none. -/
structure Touched (c : Pairing) (s t s' t' : State) (changed : List Handle) : Prop where
  abreast : Abreast c s' t'
  rest : s'.source.rest = s.source.rest
  rest' : t'.source.rest = t.source.rest
  frame : ∀ h, h ∉ changed → s'.source.tokens.get? h = s.source.tokens.get? h

theorem Touched.trans {changed : List Handle} (one : Touched c s t s' t' changed)
    (two : Touched c s' t' s'' t'' changed) : Touched c s t s'' t'' changed where
  abreast := two.abreast
  rest := two.rest.trans one.rest
  rest' := two.rest'.trans one.rest'
  frame h absent := by rw [two.frame h absent, one.frame h absent]

theorem Touched.refl (abreast : Abreast c s t) (changed : List Handle) : Touched c s t s t changed :=
  ⟨abreast, rfl, rfl, fun _ _ => rfl⟩

theorem Touched.widen {changed more : List Handle} (touched : Touched c s t s' t' changed) (among : changed ⊆ more) :
    Touched c s t s' t' more :=
  ⟨touched.abreast, touched.rest, touched.rest', fun h absent => touched.frame h fun member => absent (among member)⟩

/-- Changes to tokens that were read go with the reading of them. -/
theorem Advanced.touch {used changed : List Handle} (advanced : Advanced c s t s' t' used)
    (touched : Touched c s' t' s'' t'' changed) (among : changed ⊆ used) : Advanced c s t s'' t'' used where
  abreast := touched.abreast
  took := by rw [advanced.took, touched.rest]
  took' := by rw [advanced.took', touched.rest']
  paired := advanced.paired
  frame h absent := by rw [touched.frame h fun member => absent (among member), advanced.frame h absent]

/-- A token that was read and has not been changed. -/
structure Held (c : Pairing) (s : State) (h : Handle) : Prop where
  paired : c.paired h
  found : s.source.tokens.get? h = some (c.lexed h)
  fresh : Fresh (c.lexed h)
  read : h ∉ s.source.rest

theorem Held.later {h : Handle} {used : List Handle} (held : Held c s h) (advanced : Advanced c s t s' t' used) :
    Held c s' h := by
  have apart : h ∉ used ∧ h ∉ s'.source.rest := by
    rw [← not_or, ← List.mem_append, ← advanced.took]
    exact held.read
  exact ⟨held.paired, (advanced.frame h apart.1).trans held.found, held.fresh, apart.2⟩

/-- Tokens of some kinds are all written the same way. -/
theorem Held.word {h : Handle} {kind : TokenKind} {text : String} (held : Held c s h) (abreast : Abreast c s t)
    (same : (c.lexed h).kind = kind) (fixed : kind.fixedText? = some text) : c.word h = text := by
  subst same
  have bare : isBare (c.lexed h).kind = true := by
    revert fixed
    cases (c.lexed h).kind <;> first | exact fun _ => rfl | exact fun none => by cases none
  rw [← abreast.tokens.words h _ held.paired held.found, textOf_bare _ held.fresh.plain bare,
    held.fresh.fixed text fixed]

/-- Kind of the next token. -/
def Pairing.next (c : Pairing) (s : State) : Option TokenKind := s.source.rest.head?.map fun h => (c.lexed h).kind

theorem run_peekAt (n : Nat) (s : State) :
    (peekAt? n).run s = .ok ((s.source.rest[n]?.bind s.source.tokens.get?).map (·.kind), s) := rfl

/-- The state with other tokens left to read. -/
def State.leave (s : State) (rest : List Handle) : State := { s with source := { s.source with rest } }

theorem run_advance {s : State} {h : Handle} {rest : List Handle} (mine : s.source.rest = h :: rest) :
    advance.run s = .ok (h, s.leave rest) := by
  unfold advance
  rw [StateT.run_bind]
  simp only [StateT.run_get, pure_bind, mine]
  rfl

namespace Abreast

theorem run_peek (abreast : Abreast c s t) : peek?.run s = .ok (c.next s, s) := by
  rw [peek?, run_peekAt, Pairing.next]
  cases rest : s.source.rest with
  | nil => rfl
  | cons h later =>
    have found := (abreast.unread h (by simp [rest])).1
    simp [found]

private theorem run_peek' (abreast : Abreast c s t) : peek?.run t = .ok (c.next s, t) ∨
    c.next s = some .closeBrace ∧ peek?.run t = .ok (none, t) := by
  have aligned := abreast.rest
  have kind : ∀ h, h ∈ s.source.rest → c.paired h →
      (t.source.tokens.get? (c.partner h)).map (·.kind) = some (c.lexed h).kind := by
    intro h member paired
    obtain ⟨b, found, same, -⟩ := abreast.tokens.get? paired (abreast.unread h member).1
    simp [found, same]
  rw [peek?, run_peekAt, Pairing.next]
  generalize s.source.rest = mine at aligned kind
  generalize t.source.rest = theirs at aligned
  cases aligned with
  | nil => exact .inl rfl
  | cut brace => exact .inr ⟨by simp [brace], rfl⟩
  | cons paired _ => exact .inl (by simp [kind _ List.mem_cons_self paired])

variable {α β : Type} {post : α → β → State → State → Prop}

/-- Both readings see the same kind of token, or the second is at its end. -/
theorem peek (abreast : Abreast c s t) {f : Option TokenKind → Parse α} {g : Option TokenKind → Parse β}
    (same : Follows (f (c.next s)) (g (c.next s)) s t post)
    (ends : c.next s = some .closeBrace → Follows (f (some .closeBrace)) (g none) s t post) :
    Follows (peek? >>= f) (peek? >>= g) s t post := by
  rcases abreast.run_peek' with seen | ⟨brace, seen⟩
  · exact .step abreast.run_peek seen same
  · exact .step abreast.run_peek seen (brace ▸ ends brace)

/-- The tokens that both readings come to next, unless the second is at its end. -/
theorem next_tokens (abreast : Abreast c s t) {kind : TokenKind} (seen : c.next s = some kind)
    (more : kind ≠ .closeBrace) :
    ∃ h rest others, s.source.rest = h :: rest ∧ t.source.rest = c.partner h :: others ∧ (c.lexed h).kind = kind ∧
      c.paired h ∧ Aligned c rest others := by
  have aligned := abreast.rest
  unfold Pairing.next at seen
  generalize s.source.rest = mine at aligned seen
  generalize t.source.rest = theirs at aligned
  cases aligned with
  | nil => cases seen
  | cut brace =>
    simp only [List.head?_cons, Option.map_some, brace, Option.some.injEq] at seen
    exact absurd seen.symm more
  | cons paired later => exact ⟨_, _, _, rfl, rfl, Option.some.inj seen, paired, later⟩

private theorem pop (abreast : Abreast c s t) {h : Handle} {rest others : List Handle}
    (mine : s.source.rest = h :: rest) (theirs : t.source.rest = c.partner h :: others) (paired : c.paired h)
    (aligned : Aligned c rest others) : Advanced c s t (s.leave rest) (t.leave others) [h] where
  abreast := { abreast with
    rest := aligned
    unread := fun k member => abreast.unread k (mine ▸ List.mem_cons_of_mem h member)
    nodup := (List.nodup_cons.mp (mine ▸ abreast.nodup)).2 }
  took := mine
  took' := theirs
  paired k member := by rwa [List.mem_singleton.mp member]
  frame _ _ := rfl

private theorem advanceOnly (abreast : Abreast c s t) {kind : TokenKind} (seen : c.next s = some kind)
    (more : kind ≠ .closeBrace) {f : Handle → Parse α} {g : Handle → Parse β}
    (next : ∀ h rest others, s.source.rest = h :: rest → Advanced c s t (s.leave rest) (t.leave others) [h] →
      Held c (s.leave rest) h → (c.lexed h).kind = kind →
      Follows (f h) (g (c.partner h)) (s.leave rest) (t.leave others) post) :
    Follows (Grammar.advance >>= f) (Grammar.advance >>= g) s t post := by
  obtain ⟨h, rest, others, mine, theirs, same, paired, aligned⟩ := abreast.next_tokens seen more
  obtain ⟨found, fresh⟩ := abreast.unread h (by simp [mine])
  have read : h ∉ rest := (List.nodup_cons.mp (mine ▸ abreast.nodup)).1
  exact .step (run_advance mine) (run_advance theirs)
    (next h rest others mine (abreast.pop mine theirs paired aligned) ⟨paired, found, fresh, read⟩ same)

theorem advance (abreast : Abreast c s t) {kind : TokenKind} (seen : c.next s = some kind)
    (more : kind ≠ .closeBrace) {f : Handle → Parse α} {g : Handle → Parse β}
    (next : ∀ h s' t', Advanced c s t s' t' [h] → Held c s' h → (c.lexed h).kind = kind →
      Follows (f h) (g (c.partner h)) s' t' post) :
    Follows (Grammar.advance >>= f) (Grammar.advance >>= g) s t post :=
  abreast.advanceOnly seen more fun h _ _ _ read held same => next h _ _ read held same

theorem expectOnly (abreast : Abreast c s t) {kind : TokenKind}
    (more : kind ≠ .closeBrace) {f : Handle → Parse α} {g : Handle → Parse β}
    (next : ∀ h rest others, s.source.rest = h :: rest → Advanced c s t (s.leave rest) (t.leave others) [h] →
      Held c (s.leave rest) h → (c.lexed h).kind = kind →
      Follows (f h) (g (c.partner h)) (s.leave rest) (t.leave others) post) :
    Follows (Grammar.expect kind >>= f) (Grammar.expect kind >>= g) s t post := by
  unfold Grammar.expect
  rw [bind_assoc, bind_assoc]
  refine abreast.peek ?_ ?_
  · by_cases seen : c.next s = some kind
    · simp only [seen, BEq.rfl, if_true]
      exact abreast.advanceOnly seen more next
    · rw [if_neg (by simpa using seen)]
      exact .unexpected_bind kind.describe
  · intro seen
    have other : (some TokenKind.closeBrace == some kind) = false := by
      simpa using fun same : TokenKind.closeBrace = kind => more same.symm
    simp only [other, Bool.false_eq_true, if_false]
    exact .unexpected_bind kind.describe

theorem expect (abreast : Abreast c s t) {kind : TokenKind}
    (more : kind ≠ .closeBrace) {f : Handle → Parse α} {g : Handle → Parse β}
    (next : ∀ h s' t', Advanced c s t s' t' [h] → Held c s' h → (c.lexed h).kind = kind →
      Follows (f h) (g (c.partner h)) s' t' post) :
    Follows (Grammar.expect kind >>= f) (Grammar.expect kind >>= g) s t post :=
  abreast.expectOnly more fun h _ _ _ read held same => next h _ _ read held same

theorem accept (abreast : Abreast c s t) {kind : TokenKind} (more : kind ≠ .closeBrace)
    {f : Option Handle → Parse α} {g : Option Handle → Parse β}
    (taken : ∀ h s' t', Advanced c s t s' t' [h] → Held c s' h → (c.lexed h).kind = kind →
      Follows (f (some h)) (g (some (c.partner h))) s' t' post)
    (passed : c.next s ≠ some kind → Follows (f none) (g none) s t post) :
    Follows (accept? kind >>= f) (accept? kind >>= g) s t post := by
  unfold accept?
  rw [bind_assoc, bind_assoc]
  refine abreast.peek ?_ ?_
  · by_cases seen : c.next s = some kind
    · simp only [seen, BEq.rfl, if_true, bind_assoc, pure_bind]
      exact abreast.advance seen more taken
    · simp only [show (c.next s == some kind) = false by simpa using seen, Bool.false_eq_true, if_false, pure_bind]
      exact passed seen
  · intro seen
    have other : TokenKind.closeBrace ≠ kind := fun same => more same.symm
    simp only [show (some TokenKind.closeBrace == some kind) = false by simpa using other, Bool.false_eq_true, if_false,
      pure_bind, show (none == some kind) = false from rfl]
    exact passed (by simpa [seen] using other)

theorem run_textOf (s : State) (h : Handle) : (textOf h).run s = .ok (s.source.tokens.text h, s) := rfl

/-- Both readings look at the handle of the next token, if there is one. -/
theorem peekHandle (abreast : Abreast c s t) {f : Option Handle → Parse α} {g : Option Handle → Parse β}
    (both : ∀ h k, Follows (f (some h)) (g (some k)) s t post) (ends : ∀ h, Follows (f (some h)) (g none) s t post)
    (done : Follows (f none) (g none) s t post) : Follows (peekHandle? 0 >>= f) (peekHandle? 0 >>= g) s t post := by
  have aligned := abreast.rest
  refine .step (a := s.source.rest[0]?) (b := t.source.rest[0]?) rfl rfl ?_
  generalize s.source.rest = mine at aligned
  generalize t.source.rest = theirs at aligned
  cases aligned with
  | nil => exact done
  | cut _ => exact ends _
  | cons _ _ => exact both _ _

/-- Both readings have the same text for a token. -/
theorem textOf (abreast : Abreast c s t) {h : Handle} {a : Token} (paired : c.paired h)
    (found : s.source.tokens.get? h = some a) {f : String → Parse α} {g : String → Parse β}
    (next : Follows (f (c.word h)) (g (c.word h)) s t post) :
    Follows (Grammar.textOf h >>= f) (Grammar.textOf (c.partner h) >>= g) s t post := by
  obtain ⟨mine, theirs⟩ := abreast.tokens.text paired found
  refine .step (run_textOf s h) (run_textOf t (c.partner h)) ?_
  rw [mine, theirs]
  exact next

/-- Changes a token that was read and its partner, so that they are written as before. -/
theorem touch (abreast : Abreast c s t) {h : Handle} {a : Token} (paired : c.paired h)
    (found : s.source.tokens.get? h = some a) (read : h ∉ s.source.rest) (free : isAnchor a.kind = false)
    {f g : Token → Token} (alike : ∀ b, c.Alike a b → c.Alike (f a) (g b))
    (written : s.source.tokens.textOf (f a) = c.word h)
    (targets : ∀ k, (f a).literal.aliasTarget? = some k → c.paired k ∧ Anchored s.source.tokens k) :
    Touched c s t (s.onTokens (·.modify h f)) (t.onTokens (·.modify (c.partner h) g)) [h] where
  abreast := { abreast with
    named := by
      intro entry member
      obtain ⟨known, anchors⟩ := abreast.named entry member
      refine ⟨known, fun b held => ?_⟩
      have before : ∃ d, s.source.tokens.get? entry.2 = some d := by
        by_cases here : entry.2 = h
        · exact ⟨a, here ▸ found⟩
        · exact ⟨b, by rwa [State.onTokens, TokenStream.get?_modify, if_neg here] at held⟩
      obtain ⟨d, held'⟩ := before
      exact ⟨.modify found free (anchors d held').1 f, (anchors d held').2⟩
    defined := by
      intro name d member
      obtain ⟨known, anchored, word⟩ := abreast.defined name d member
      exact ⟨known, .modify found free anchored f, word⟩
    tokens := abreast.tokens.modify paired found free alike written targets
    unread := by
      intro k member
      have apart : k ≠ h := fun same => read (same ▸ member)
      obtain ⟨held, fresh⟩ := abreast.unread k member
      exact ⟨by rw [State.onTokens, TokenStream.get?_modify, if_neg apart, held], fresh⟩ }
  rest := rfl
  rest' := rfl
  frame k absent := by
    rw [State.onTokens, TokenStream.get?_modify, if_neg (by simpa using absent)]

/-- A token gets the kind that its role asks for. -/
theorem refine (abreast : Abreast c s t) {h : Handle} (held : Held c s h) {kind : TokenKind}
    (bare : isBare (c.lexed h).kind = true) (bare' : isBare kind = true)
    {f : Unit → Parse α} {g : Unit → Parse β}
    (next : ∀ s' t', Touched c s t s' t' [h] → s'.source.tokens.get? h = some { c.lexed h with kind } →
      Follows (f ()) (g ()) s' t' post) :
    Follows (Grammar.refine h kind >>= f) (Grammar.refine (c.partner h) kind >>= g) s t post := by
  have plain : (c.lexed h).literal.aliasTarget? = none := held.fresh.plain
  refine .step rfl rfl (next _ _ (abreast.touch held.paired held.found held.read held.fresh.free
    (f := fun token => { token with kind }) (g := fun token => { token with kind }) ?_ ?_ ?_) ?_)
  · intro b alike
    exact ⟨rfl, alike.2⟩
  · rw [← abreast.tokens.words h _ held.paired held.found, textOf_bare _ plain bare]
    exact textOf_bare _ plain bare'
  · intro k target
    rw [plain] at target
    cases target
  · show (s.source.tokens.modify h _).get? h = _
    rw [TokenStream.get?_modify, if_pos rfl, held.found]
    rfl

/-- A token gets another literal, which is written as before. -/
theorem setLiteral (abreast : Abreast c s t) {h : Handle} {a : Token} (paired : c.paired h)
    (found : s.source.tokens.get? h = some a) (read : h ∉ s.source.rest) (free : isAnchor a.kind = false)
    {mine theirs : Literal} (same : theirs = mine.redirect c.partner)
    (written : s.source.tokens.textOf { a with literal := mine } = c.word h)
    (targets : ∀ k, mine.aliasTarget? = some k → c.paired k ∧ Anchored s.source.tokens k)
    {f : Unit → Parse α} {g : Unit → Parse β}
    (next : ∀ s' t', Touched c s t s' t' [h] → Follows (f ()) (g ()) s' t' post) :
    Follows (Grammar.setLiteral h mine >>= f) (Grammar.setLiteral (c.partner h) theirs >>= g) s t post := by
  refine .step rfl rfl (next _ _ (abreast.touch paired found read free (f := fun token =>
    { token with literal := mine })
    (g := fun token => { token with literal := theirs }) ?_ written targets))
  intro b alike
  exact ⟨alike.1, same⟩

/-- Where lines end does not matter to what is read. -/
theorem breakAfter (abreast : Abreast c s t) {h : Handle} {a : Token} (paired : c.paired h)
    (found : s.source.tokens.get? h = some a) (read : h ∉ s.source.rest) (free : isAnchor a.kind = false)
    {mine theirs : Bool} {f : Unit → Parse α} {g : Unit → Parse β}
    (next : ∀ s' t', Touched c s t s' t' [h] → Follows (f ()) (g ()) s' t' post) :
    Follows (Grammar.breakAfter h mine >>= f) (Grammar.breakAfter (c.partner h) theirs >>= g) s t post := by
  refine .step rfl rfl (next _ _ (abreast.touch paired found read free
    (f := fun token => { token with breakAfter := token.breakAfter || mine })
    (g := fun token => { token with breakAfter := token.breakAfter || theirs }) ?_ ?_ ?_))
  · exact fun b alike => alike
  · exact abreast.tokens.words h a paired found
  · exact fun k => abreast.tokens.targets h a k found

theorem checkEscapes (abreast : Abreast c s t) {h : Handle} (held : Held c s h) {f : Unit → Parse α}
    {g : Unit → Parse β} (next : Follows (f ()) (g ()) s t post) : Follows (Grammar.checkEscapes h >>= f)
    (Grammar.checkEscapes (c.partner h) >>= g) s t post := by
  obtain ⟨b, other, -, literal⟩ := abreast.tokens.get? held.paired held.found
  rw [Literal.redirect_plain held.fresh.plain] at literal
  unfold Grammar.checkEscapes
  rw [bind_assoc, bind_assoc]
  refine .step rfl rfl ?_
  simp only [held.found, other, Option.bind_some, literal]
  cases (c.lexed h).literal.asText? with
  | none => exact next
  | some text =>
    dsimp only
    cases Text.unescape text with
    | ok _ => exact next
    | error _ => exact .of_fails ⟨_, rfl⟩

/-- Both readings find the same regular expression. -/
theorem readRegexp (abreast : Abreast c s t) {h : Handle} (held : Held c s h) {f : Regexp → Parse α}
    {g : Regexp → Parse β} (next : ∀ regexp, Follows (f regexp) (g regexp) s t post) : Follows
    (Grammar.readRegexp h >>= f) (Grammar.readRegexp (c.partner h) >>= g) s t post := by
  unfold Grammar.readRegexp
  rw [bind_assoc, bind_assoc]
  refine abreast.textOf held.paired held.found ?_
  cases Regexp.read (c.word h) with
  | ok regexp => exact next regexp
  | error fault => exact .of_fails ⟨_, rfl⟩

end Abreast

/-! ### Ends of sources -/

theorem Abreast.next_of_nil (abreast : Abreast c s t) (done : t.source.rest = []) :
    c.next s = none ∨ c.next s = some .closeBrace := by
  have aligned := abreast.rest
  rw [done] at aligned
  unfold Pairing.next
  generalize s.source.rest = mine at aligned
  cases aligned with
  | nil => exact .inl rfl
  | cut brace => exact .inr (by simp [brace])

theorem Abreast.nil_of_nil (abreast : Abreast c s t) (done : s.source.rest = []) : t.source.rest = [] := by
  have aligned := abreast.rest
  rw [done] at aligned
  generalize t.source.rest = theirs at aligned
  cases aligned
  rfl

/-- Steps that cannot fail end both readings. -/
theorem Follows.of_runs {α β : Type} {p : Parse α} {q : Parse β} {post : α → β → State → State → Prop} {a : α} {b : β}
    (one : p.run s = .ok (a, s')) (two : q.run t = .ok (b, t')) (holds : post a b s' t') : Follows p q s t post := by
  intro a' s'' ran
  rw [one] at ran
  cases ran
  exact ⟨b, t', two, holds⟩

theorem run_peek_nil (done : t.source.rest = []) : peek?.run t = .ok (none, t) := by
  rw [peek?, run_peekAt, done]
  rfl

end YaraRules.Grammar
