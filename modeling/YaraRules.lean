import YaraRules.Configuration
import YaraRules.Draft.File
import YaraRules.Session
import YaraRules.Proofs.ChainLinks
import YaraRules.Proofs.ChainEntries
import YaraRules.Proofs.StreamOwners
import YaraRules.Proofs.StreamSound
import YaraRules.Proofs.StreamAliases
import YaraRules.Proofs.StreamViews
import YaraRules.Proofs.StreamMoves
import YaraRules.Proofs.StreamGroup
import YaraRules.Proofs.StreamDepths
import YaraRules.Proofs.NameTries
import YaraRules.Proofs.StreamTexts
import YaraRules.Proofs.PairedReadings
import YaraRules.Proofs.PairedSteps
import YaraRules.Proofs.ExprHandles
import YaraRules.Proofs.Spelling
import YaraRules.Proofs.PairedNames
import YaraRules.Proofs.PairedTerms
import YaraRules.Proofs.PairedLoops
import YaraRules.Proofs.PairedConditions
import YaraRules.Proofs.StreamGenerations
import YaraRules.Proofs.StreamTransfers
import YaraRules.Proofs.HandleHistory
import YaraRules.Proofs.StreamRefusals
import YaraRules.Proofs.ReadingOrder
import YaraRules.Proofs.CodeOrder
import YaraRules.Proofs.CodeMoves
import YaraRules.Proofs.RuleRows
import YaraRules.Proofs.RuleEdits
import YaraRules.Proofs.ConditionEdits
import YaraRules.Proofs.FileEdits
import YaraRules.Proofs.DraftRows
import YaraRules.Proofs.ReadRows
import YaraRules.Proofs.ReadConditions
import YaraRules.Proofs.ReadRules
import YaraRules.Proofs.ReadCourses
import YaraRules.Proofs.ReadFiles
import YaraRules.Proofs.LivingHandles
import YaraRules.Proofs.StreamSights
import YaraRules.Proofs.NameRoles
import YaraRules.Proofs.ReadNames
import YaraRules.Proofs.ReadConditionNames
import YaraRules.Proofs.ReadFrames
import YaraRules.Proofs.ReadConditionFrames
import YaraRules.Proofs.ConditionScopes
import YaraRules.Proofs.ReadScopes
import YaraRules.Proofs.ReadConditionScopes
import YaraRules.Proofs.ReadRuleNames
import YaraRules.Proofs.ReadRuleFrames
import YaraRules.Proofs.ReadRuleScopes
import YaraRules.Proofs.LexerClasses
import YaraRules.Proofs.LexerSpans
import YaraRules.Proofs.ReadFileNames
import YaraRules.Proofs.LexerTexts
import YaraRules.Proofs.ReadFileScopes
import YaraRules.Proofs.ReadInclusions
import YaraRules.Proofs.ReadDepths
import YaraRules.Proofs.ReadCycles
import YaraRules.Proofs.RuleRenames
import YaraRules.Proofs.StreamSplices
import YaraRules.Proofs.StreamArrivals
import YaraRules.Proofs.StreamCopies
import YaraRules.Proofs.RuleTexts
import YaraRules.Proofs.RuleSpans
import YaraRules.Proofs.OwnRules
import YaraRules.Proofs.RuleCopies
import YaraRules.Proofs.NameListings
import YaraRules.Proofs.ReadRuleWords
import YaraRules.Proofs.StringRenames
import YaraRules.Proofs.StreamWords
import YaraRules.Proofs.RuleForms
import YaraRules.Proofs.ReadRuleForms
import YaraRules.Proofs.RuleEditForms
import YaraRules.Proofs.FileEditForms
import YaraRules.Proofs.DraftForms
import YaraRules.Proofs.AttainedForms
import YaraRules.Proofs.ImportEdits
import YaraRules.Proofs.EscapedTexts
import YaraRules.Proofs.EscapeSequences
import YaraRules.Proofs.LexerWords
import YaraRules.Proofs.WrittenLiterals
import YaraRules.Proofs.MetaEntries
import YaraRules.Proofs.MetaEdits
import YaraRules.Proofs.StreamReports
import YaraRules.Proofs.StreamRecasts
import YaraRules.Proofs.RangeCopies
import YaraRules.Proofs.ConditionCopies
import YaraRules.Proofs.ReadOwners
import YaraRules.Proofs.MirroredFiles
import YaraRules.Proofs.CopiedConditions
import YaraRules.Proofs.ReadBounds
import YaraRules.Proofs.ReadConditionBounds
import YaraRules.Proofs.ReadRuleBounds
import YaraRules.Proofs.BooleanConditions
import YaraRules.Proofs.DraftRegexps
import YaraRules.Proofs.DraftStrings
import YaraRules.Proofs.HexRoundTrips
import YaraRules.Proofs.RawStrings
import YaraRules.Proofs.HexComments
import YaraRules.Proofs.NameTrieEdits
import YaraRules.Proofs.LexerPositions
import YaraRules.Proofs.ReadTexts
import YaraRules.Proofs.LaidItems
import YaraRules.Proofs.AlignedComments
import YaraRules.Proofs.LayoutLines
import YaraRules.Proofs.StreamTargets
import YaraRules.Proofs.LegibleTexts
import YaraRules.Proofs.AliasTargets
import YaraRules.Proofs.IntegerLiterals
import YaraRules.Proofs.RereadConditions
