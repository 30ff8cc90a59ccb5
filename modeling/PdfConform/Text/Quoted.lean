import PdfConform.Text.Hidden

/-! The quoted form in which messages show a piece of a grammar expression:
always on one line, with every character that cannot be seen written out. -/
namespace PdfConform.Text

def hexDigit (n : Nat) : Char :=
  if n < 10 then Char.ofNat (48 + n) else Char.ofNat (87 + n)

/-- Lower-case hexadecimal without leading zeros; zero itself is a single digit. -/
def hexadecimal (n : Nat) : List Char :=
  if n < 16 then [hexDigit n] else hexadecimal (n / 16) ++ [hexDigit (n % 16)]

/-- One character inside quotation marks. -/
def quotedChar (c : Char) : List Char :=
  if c = '"' then ['\\', '"']
  else if c = '\\' then ['\\', '\\']
  else if c = '\n' then ['\\', 'n']
  else if c = '\r' then ['\\', 'r']
  else if c = '\t' then ['\\', 't']
  else if c = '\x00' then ['\\', '0']
  else if isHidden c then ['\\', 'u', '\x7b'] ++ hexadecimal c.toNat ++ ['\x7d']
  else [c]

def quoted (s : String) : String :=
  String.ofList (['"'] ++ s.toList.flatMap quotedChar ++ ['"'])

theorem shows_hexDigit {n : Nat} (h : n < 16) : isHidden (hexDigit n) = false := by
  have hall : ∀ i : Fin 16, isHidden (hexDigit i) = false := by decide +kernel
  exact hall ⟨n, h⟩

theorem shows_hexadecimal (n : Nat) : (hexadecimal n).any isHidden = false := by
  induction n using hexadecimal.induct with
  | case1 n hsmall => simp [hexadecimal, hsmall, shows_hexDigit hsmall]
  | case2 n hlarge ih =>
    have hlast : isHidden (hexDigit (n % 16)) = false := shows_hexDigit (Nat.mod_lt n (by decide))
    rw [hexadecimal, if_neg hlarge, List.any_append, ih, Bool.false_or]
    simp [hlast]

theorem shows_quotedChar (c : Char) : (quotedChar c).any isHidden = false := by
  unfold quotedChar
  iterate 6
    split
    · decide +kernel
  split
  · rw [List.any_append, List.any_append, shows_hexadecimal]
    decide +kernel
  · next hshown => simpa using hshown

/-- Whatever the text holds, every character of its quoted form shows. -/
theorem shows_quoted (s : String) : (quoted s).toList.any isHidden = false := by
  have hmiddle : (s.toList.flatMap quotedChar).any isHidden = false := by
    simp [List.any_flatMap, shows_quotedChar]
  rw [quoted, String.toList_ofList, List.any_append, List.any_append, hmiddle]
  decide +kernel

/-- An accent by itself. -/
example : quoted "e\u0301" = "\"e\\u\x7b301\x7d\"" := by decide +kernel

end PdfConform.Text
