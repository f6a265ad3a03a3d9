import YaraRules.Text.Hidden

/-! Text in double quotes for a reader to look at. -/

namespace YaraRules.Text

/-- One character between the quotes. Characters that would not show are written by their code. -/
def quotedChar (c : Char) : List Char :=
  if c == '\\' || c == '"' then ['\\', c]
  else if c == '\n' then ['\\', 'n']
  else if c == '\t' then ['\\', 't']
  else if c == '\r' then ['\\', 'r']
  else if c.toNat == 0 then ['\\', '0']
  else if isHidden c then "\\u\x7b".toList ++ Nat.toDigits 16 c.toNat ++ ['\x7d']
  else [c]

def quoted (s : String) : String :=
  "\"" ++ String.ofList (s.toList.flatMap quotedChar) ++ "\""

end YaraRules.Text
