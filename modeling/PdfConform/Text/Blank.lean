/-! Blank characters and trimming. Every reader in this library that skips or
strips white space means the Unicode property White_Space, which is wider than
the core library's ASCII test. -/
namespace PdfConform.Text

/-- The 25 characters with the Unicode property White_Space. -/
def isBlank (c : Char) : Bool :=
  let n := c.toNat
  (9 ≤ n && n ≤ 13) || n == 0x20 || n == 0x85 || n == 0xA0 || n == 0x1680 ||
    (0x2000 ≤ n && n ≤ 0x200A) || n == 0x2028 || n == 0x2029 || n == 0x202F ||
    n == 0x205F || n == 0x3000

def trimStart (cs : List Char) : List Char := cs.dropWhile isBlank

def trimEnd (cs : List Char) : List Char := (cs.reverse.dropWhile isBlank).reverse

def trim (cs : List Char) : List Char := trimEnd (trimStart cs)

def trimmed (s : String) : String := String.ofList (trim s.toList)

/-- The text between two marks, when both are there and do not share a character. -/
def between (first last : Char) (cs : List Char) : Option (List Char) :=
  match cs with
  | c :: rest =>
    if c = first then
      match rest.reverse with
      | d :: inner => if d = last then some inner.reverse else none
      | [] => none
    else none
  | [] => none

theorem trim_of_noBlank {cs : List Char} (h : ∀ c ∈ cs, isBlank c = false) : trim cs = cs := by
  have drop (l : List Char) (hl : ∀ c ∈ l, isBlank c = false) : l.dropWhile isBlank = l := by
    cases l with
    | nil => rfl
    | cons c l => simp [hl c]
  rw [trim, trimStart, drop cs h, trimEnd, drop _ fun c hc => h c (List.mem_reverse.1 hc),
    List.reverse_reverse]

end PdfConform.Text
