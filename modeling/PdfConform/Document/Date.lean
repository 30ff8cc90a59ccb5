import PdfConform.Number.Whole

/-! Dates as strings: year, then any leading part of month, day, hour, minute and
second at two digits each, then perhaps a zone. -/
namespace PdfConform

/-- Local time; the offset is in seconds east of UTC. -/
structure Date where
  year : Nat
  month : Nat
  day : Nat
  hour : Nat
  minute : Nat
  second : Nat
  offset : Int
  deriving DecidableEq

namespace Date

def isLeapYear (year : Nat) : Bool :=
  year % 4 == 0 && (year % 100 != 0 || year % 400 == 0)

def daysInMonth (year : Nat) : Nat → Nat
  | 2 => if isLeapYear year then 29 else 28
  | 4 | 6 | 9 | 11 => 30
  | _ => 31

def isValid (d : Date) : Bool :=
  1 ≤ d.month && d.month ≤ 12 && 1 ≤ d.day && d.day ≤ daysInMonth d.year d.month &&
    d.hour < 24 && d.minute < 60 && d.second < 60

/-- Hours and minutes, the minutes optional; apostrophes may stand anywhere among the digits. -/
def readOffset (cs : List Char) : Option Nat := do
  let ds := cs.filter (· != '\'')
  guard (ds.length = 2 || ds.length = 4)
  let hours ← Number.readDigits (ds.take 2)
  let minutes ← if ds.length = 2 then some 0 else Number.readDigits (ds.drop 2)
  guard (hours ≤ 23 && minutes ≤ 59)
  return hours * 3600 + minutes * 60

/-- The zone after the digits: none, Z with no more than zeros, or a signed offset. -/
def readZone (cs : List Char) : Option Int :=
  match cs with
  | [] => some 0
  | '+' :: rest => (readOffset rest).map Int.ofNat
  | '-' :: rest => (readOffset rest).map fun n => -(n : Int)
  | cs =>
    if String.ofList cs ∈ ["Z", "Z00", "Z00'", "Z00'00", "Z00'00'"] then some 0 else none

/-- The two digits at a position, or the default where the digits end. -/
def field (ds : List Char) (start default : Nat) : Nat :=
  if start < ds.length then Number.ofDigits ((ds.drop start).take 2) else default

def parseChars (cs : List Char) : Option Date := do
  let (ds, zone) := cs.span Char.isDigit
  guard (ds.length ∈ [4, 6, 8, 10, 12, 14])
  let date : Date := {
    year := Number.ofDigits (ds.take 4)
    month := field ds 4 1
    day := field ds 6 1
    hour := field ds 8 0
    minute := field ds 10 0
    second := field ds 12 0
    offset := ← readZone zone }
  guard date.isValid
  return date

/-- A leading "D:" may be missing. -/
def parse (s : String) : Option Date :=
  match s.toList with
  | 'D' :: ':' :: rest => parseChars rest
  | cs => parseChars cs

def pad (width n : Nat) : List Char :=
  let ds := Number.digits n
  List.replicate (width - ds.length) '0' ++ ds

def localText (d : Date) : String :=
  String.ofList (pad 4 d.year ++ '-' :: pad 2 d.month ++ '-' :: pad 2 d.day ++ 'T' ::
    pad 2 d.hour ++ ':' :: pad 2 d.minute ++ ':' :: pad 2 d.second)

end Date

end PdfConform
