import LuajitTcpServer.Lib.Numerals

/-!
# Patterns — searching in texts as Lua does

`string.find`, `match`, `gmatch` and `gsub` over texts as lists of characters, with the patterns
of Lua 5.1 as LuaJIT reads them.

* `parse pattern` — the items of a pattern; what the matcher would refuse is an item that raises
  its error when it is reached;
* `matchItems` — the backtracking matcher: it returns what is left of the text;
* `find`, `firstMatch`, `gmatch` and `gsub` — the scans over a text.

Positions count from one.  A limit on the depth of the backtracking is left out.
-/

namespace Lua

/-- A property of the characters of a text is decided for these, not for every character. -/
instance decidableCharsOf {p : Char → Prop} [DecidablePred p] (txt : List Char) :
    Decidable (∀ c ∈ txt, p c) :=
  List.decidableBAll p txt

instance decidableCharOf {p : Char → Prop} [DecidablePred p] (c? : Option Char) :
    Decidable (∀ c ∈ c?, p c) :=
  Option.decidableForallMem c?

/-! ## Classes and sets -/

def isControl (c : Char) : Bool := c.toNat < 32 || c.toNat = 127

def isGraph (c : Char) : Bool := 33 ≤ c.toNat && c.toNat ≤ 126

def isHexDigit (c : Char) : Bool := isDigitOf 16 c

/-- What the letter of a class stands for. -/
def classOf (letter : Char) : Option (Char → Bool) :=
  match letter with
  | 'a' => some Char.isAlpha
  | 'c' => some isControl
  | 'd' => some Char.isDigit
  | 'g' => some isGraph
  | 'l' => some Char.isLower
  | 'p' => some fun c => isGraph c && !c.isAlphanum
  | 's' => some isBlank
  | 'u' => some Char.isUpper
  | 'w' => some Char.isAlphanum
  | 'x' => some isHexDigit
  | 'z' => some (· = '\x00')
  | _ => none

/-- `%` and a letter is a class, its complement when the letter is large; `%` and any other
character is that character. -/
def matchClass (letter c : Char) : Bool :=
  match classOf letter.toLower with
  | some holds => if letter.isUpper then !holds c else holds c
  | none => c = letter

inductive Member where
  | char (c : Char)
  | range (low high : Char)
  | cls (letter : Char)
  deriving DecidableEq, Repr

def Member.holds : Member → Char → Bool
  | .char c, d => c = d
  | .range low high, d => low ≤ d && d ≤ high
  | .cls letter, d => matchClass letter d

inductive Single where
  | any
  | char (c : Char)
  | cls (letter : Char)
  | set (complement : Bool) (members : List Member)
  deriving DecidableEq, Repr

def Single.holds : Single → Char → Bool
  | .any, _ => true
  | .char c, d => c = d
  | .cls letter, d => matchClass letter d
  | .set complement members, d => complement != members.any (·.holds d)

/-! ## Reading a pattern -/

/-- What stops a script: a pattern that is refused, or an operation on `nil`. -/
inductive Error where
  | nilValue
  | endsWithEscape
  | missingBracket
  | missingSet
  | unbalanced
  | tooManyCaptures
  | noOpenCapture
  | captureIndex
  | unfinishedCapture
  deriving DecidableEq, Repr

inductive Item where
  | one (s : Single)
  | optional (s : Single)
  | star (s : Single)
  | plus (s : Single)
  | minus (s : Single)
  | openCapture
  | positionCapture
  | closeCapture
  | backReference (index : Nat)
  | balance (opening closing : Char)
  | frontier (s : Single)
  | endAnchor
  | malformed (e : Error)
  deriving DecidableEq, Repr

/-- The text up to the `]` that ends a set, and what follows it.  The first character and one
behind `%` do not end a set. -/
def setBody (first escaped : Bool) : List Char → Option (List Char × List Char)
  | [] => none
  | c :: rest =>
      if !first && !escaped && c = ']' then some ([], rest)
      else (setBody false (!escaped && c = '%') rest).map fun (body, rest) => (c :: body, rest)

def setMembers : List Char → List Member
  | [] => []
  | [c] => [.char c]
  | c :: d :: rest =>
      if c = '%' then .cls d :: setMembers rest
      else if d = '-' then
        match rest with
        | [] => [.char c, .char d]
        | high :: rest => .range c high :: setMembers rest
      else .char c :: setMembers (d :: rest)

/-- A set behind its `[`. -/
def parseSet (txt : List Char) : Except Error (Single × List Char) :=
  let (complement, txt) :=
    match txt with
    | '^' :: rest => (true, rest)
    | txt => (false, txt)
  match setBody true false txt with
  | some (body, rest) => .ok (.set complement (setMembers body), rest)
  | none => .error .missingBracket

/-- What stands for one character of a text, and the rest of the pattern. -/
def parseSingle (c : Char) (rest : List Char) : Except Error (Single × List Char) :=
  match c with
  | '%' =>
      match rest with
      | letter :: rest => .ok (.cls letter, rest)
      | [] => .error .endsWithEscape
  | '[' => parseSet rest
  | '.' => .ok (.any, rest)
  | c => .ok (.char c, rest)

/-- The repetition behind what stands for one character. -/
def parseRepeat (s : Single) (rest : List Char) : Item × List Char :=
  match rest with
  | '?' :: rest => (.optional s, rest)
  | '*' :: rest => (.star s, rest)
  | '+' :: rest => (.plus s, rest)
  | '-' :: rest => (.minus s, rest)
  | rest => (.one s, rest)

def parseFrontier (rest : List Char) : Item × List Char :=
  match rest with
  | '[' :: rest =>
      match parseSet rest with
      | .ok (s, rest) => (.frontier s, rest)
      | .error e => (.malformed e, [])
  | _ => (.malformed .missingSet, [])

def parseBalance (rest : List Char) : Item × List Char :=
  match rest with
  | opening :: closing :: rest => (.balance opening closing, rest)
  | _ => (.malformed .unbalanced, [])

def parsePlain (c : Char) (rest : List Char) : Item × List Char :=
  match parseSingle c rest with
  | .ok (s, rest) => parseRepeat s rest
  | .error e => (.malformed e, [])

/-- The item that starts with a `%`. -/
def parseEscape (rest : List Char) : Item × List Char :=
  match rest with
  | [] => parsePlain '%' []
  | d :: rest =>
      if d = 'b' then parseBalance rest
      else if d = 'f' then parseFrontier rest
      else if d.isDigit then (.backReference (digitValue d), rest)
      else parsePlain '%' (d :: rest)

/-- The first item of a pattern that starts with `c`. -/
def parseItem (c : Char) (rest : List Char) : Item × List Char :=
  match c with
  | '(' => if rest.head? = some ')' then (.positionCapture, rest.tail) else (.openCapture, rest)
  | ')' => (.closeCapture, rest)
  | '%' => parseEscape rest
  | '$' => if rest = [] then (.endAnchor, []) else parsePlain '$' rest
  | c => parsePlain c rest

/-- Each item takes at least one character, so the length of the pattern is fuel enough. -/
def parseItems : Nat → List Char → List Item
  | 0, _ => []
  | _ + 1, [] => []
  | fuel + 1, c :: rest => (parseItem c rest).1 :: parseItems fuel (parseItem c rest).2

/-- A zero byte ends a pattern. -/
def parse (pattern : List Char) : List Item :=
  parseItems pattern.length (pattern.takeWhile (· ≠ '\x00'))

/-! ## The matcher -/

inductive Extent where
  | unfinished
  | position
  | closed (length : Nat)
  deriving DecidableEq, Repr

/-- A capture starts where `start` is left of the text. -/
structure Capture where
  start : List Char
  extent : Extent
  deriving DecidableEq, Repr

/-- What is left of the text behind a match, and the character before it. -/
structure Match where
  previous : Char
  rest : List Char
  captures : List Capture
  deriving DecidableEq, Repr

abbrev Found := Except Error (Option Match)

/-- As many characters as possible, then fewer. -/
def maxExpand (holds : Char → Bool) (next : Char → List Char → Found) :
    Char → List Char → Found
  | previous, [] => next previous []
  | previous, c :: rest =>
      if holds c then
        match maxExpand holds next c rest with
        | .ok none => next previous (c :: rest)
        | found => found
      else next previous (c :: rest)

/-- As few characters as possible, then more. -/
def minExpand (holds : Char → Bool) (next : Char → List Char → Found) :
    Char → List Char → Found
  | previous, [] => next previous []
  | previous, c :: rest =>
      match next previous (c :: rest) with
      | .ok none => if holds c then minExpand holds next c rest else .ok none
      | found => found

/-- What is left behind the character that closes the balanced text, `depth` levels up. -/
def closeBalance (opening closing : Char) : Nat → List Char → Option (List Char)
  | _, [] => none
  | depth, c :: rest =>
      if c = closing then
        match depth with
        | 0 => some rest
        | depth + 1 => closeBalance opening closing depth rest
      else if c = opening then closeBalance opening closing (depth + 1) rest
      else closeBalance opening closing depth rest

/-- Captures are kept with the newest one first; `)` closes the newest unfinished one. -/
def closeNewest (rest : List Char) : List Capture → Option (List Capture)
  | [] => none
  | capture :: captures =>
      if capture.extent = .unfinished then
        some ({ capture with extent := .closed (capture.start.length - rest.length) } :: captures)
      else (closeNewest rest captures).map (capture :: ·)

def backReference (index : Nat) (captures : List Capture) (rest : List Char) :
    Except Error (Option (List Char × List Char)) :=
  match index, captures.reverse[index - 1]? with
  | 0, _ | _, none => .error .captureIndex
  | _, some ⟨_, .unfinished⟩ => .error .captureIndex
  | _, some ⟨_, .position⟩ => .ok none
  | _, some ⟨start, .closed length⟩ =>
      let captured := start.take length
      .ok (if captured.isPrefixOf rest then some (captured, rest.drop length) else none)

def maxCaptures : Nat := 32

def openNewest (rest : List Char) (extent : Extent) (captures : List Capture) :
    Except Error (List Capture) :=
  if captures.length < maxCaptures then .ok (⟨rest, extent⟩ :: captures)
  else .error .tooManyCaptures

def matchItems : List Item → Char → List Char → List Capture → Found
  | [], previous, rest, captures => .ok (some ⟨previous, rest, captures⟩)
  | .one _ :: _, _, [], _ => .ok none
  | .one s :: items, _, c :: rest, captures =>
      if s.holds c then matchItems items c rest captures else .ok none
  | .optional _ :: items, previous, [], captures => matchItems items previous [] captures
  | .optional s :: items, previous, c :: rest, captures =>
      if s.holds c then
        match matchItems items c rest captures with
        | .ok none => matchItems items previous (c :: rest) captures
        | found => found
      else matchItems items previous (c :: rest) captures
  | .star s :: items, previous, rest, captures =>
      maxExpand s.holds (fun previous rest => matchItems items previous rest captures)
        previous rest
  | .plus _ :: _, _, [], _ => .ok none
  | .plus s :: items, _, c :: rest, captures =>
      if s.holds c then
        maxExpand s.holds (fun previous rest => matchItems items previous rest captures) c rest
      else .ok none
  | .minus s :: items, previous, rest, captures =>
      minExpand s.holds (fun previous rest => matchItems items previous rest captures)
        previous rest
  | .openCapture :: items, previous, rest, captures => do
      matchItems items previous rest (← openNewest rest .unfinished captures)
  | .positionCapture :: items, previous, rest, captures => do
      matchItems items previous rest (← openNewest rest .position captures)
  | .closeCapture :: items, previous, rest, captures =>
      match closeNewest rest captures with
      | some captures => matchItems items previous rest captures
      | none => .error .noOpenCapture
  | .backReference index :: items, previous, rest, captures =>
      match backReference index captures rest with
      | .error e => .error e
      | .ok none => .ok none
      | .ok (some (captured, rest)) =>
          matchItems items (captured.getLastD previous) rest captures
  | .balance _ _ :: _, _, [], _ => .ok none
  | .balance opening closing :: items, _, c :: rest, captures =>
      if c = opening then
        match closeBalance opening closing 0 rest with
        | some rest => matchItems items closing rest captures
        | none => .ok none
      else .ok none
  | .frontier s :: items, previous, rest, captures =>
      if !s.holds previous && s.holds (rest.headD '\x00') then
        matchItems items previous rest captures
      else .ok none
  | .endAnchor :: items, previous, rest, captures =>
      if rest = [] then matchItems items previous rest captures else .ok none
  | .malformed e :: _, _, _, _ => .error e

/-! ## Parts of a text -/

/-- `string.sub`: a negative position counts from the end. -/
def sub (txt : List Char) (first last : Int) : List Char :=
  let fromStart (position : Int) : Int :=
    if position < 0 then position + txt.length + 1 else position
  (txt.take (fromStart last).toNat).drop ((fromStart first).toNat - 1)

/-! ## Scans over a text -/

/-- The first place where `part` stands in the text, and how far it is. -/
def plainFrom (part : List Char) : List Char → Option Nat
  | [] => if part = [] then some 0 else none
  | c :: rest =>
      if part.isPrefixOf (c :: rest) then some 0 else (plainFrom part rest).map (· + 1)

/-- The characters that make a text more than itself as a pattern. -/
def isSpecial (c : Char) : Bool :=
  c ∈ ['^', '$', '*', '+', '?', '.', '(', '[', '%', '-']

/-- What a match gives, or what the search goes on with. -/
def orGoOn (found : Found) (next : Except Error (Option (Nat × Match))) :
    Except Error (Option (Nat × Match)) :=
  match found with
  | .error e => .error e
  | .ok (some found) => .ok (some (0, found))
  | .ok none => next

/-- The first place where the items match, how far it is, and the match. -/
def search (items : List Item) (anchored : Bool) :
    Char → List Char → Except Error (Option (Nat × Match))
  | previous, [] => orGoOn (matchItems items previous [] []) (.ok none)
  | previous, c :: rest =>
      orGoOn (matchItems items previous (c :: rest) [])
        (if anchored then .ok none
        else
          (search items anchored c rest).map
            (Option.map fun (skipped, found) => (skipped + 1, found)))

/-- A pattern without the `^` that anchors it. -/
def anchor (pattern : List Char) : Bool × List Char :=
  match pattern with
  | '^' :: rest => (true, rest)
  | pattern => (false, pattern)

def Capture.isFinished (capture : Capture) : Bool := capture.extent ≠ .unfinished

/-- The positions of the first and of the last character of what is found.  A start behind the end
of the text is one at its end. -/
def find (txt pattern : List Char) (init : Nat) (plain : Bool) :
    Except Error (Option (Nat × Nat)) :=
  let start := min (init - 1) txt.length
  let rest := txt.drop start
  if plain || !pattern.any isSpecial then
    .ok ((plainFrom pattern rest).map fun skipped =>
      (start + skipped + 1, start + skipped + pattern.length))
  else
    let (anchored, pattern) := anchor pattern
    match search (parse pattern) anchored ((txt.take start).getLastD '\x00') rest with
    | .error e => .error e
    | .ok none => .ok none
    | .ok (some (skipped, found)) =>
        if found.captures.all (·.isFinished) then
          .ok (some (start + skipped + 1, txt.length - found.rest.length))
        else .error .unfinishedCapture

/-- The text of a capture; that of a position capture is the position in digits. -/
def Capture.text (total : Nat) (capture : Capture) : Except Error (List Char) :=
  match capture.extent with
  | .unfinished => .error .unfinishedCapture
  | .position => .ok (digits (total - capture.start.length + 1))
  | .closed length => .ok (capture.start.take length)

/-- The first capture of a match, or the whole of it when it has none. -/
def Match.value (total : Nat) (txt : List Char) (found : Match) : Except Error (List Char) :=
  if found.captures.all (·.isFinished) then
    match found.captures.getLast? with
    | some capture => capture.text total
    | none => .ok (txt.take (txt.length - found.rest.length))
  else .error .unfinishedCapture

/-- `string.match` from the start of a text. -/
def firstMatch (txt pattern : List Char) : Except Error (Option (List Char)) :=
  let (anchored, pattern) := anchor pattern
  match search (parse pattern) anchored '\x00' txt with
  | .error e => .error e
  | .ok none => .ok none
  | .ok (some (skipped, found)) =>
      (found.value txt.length (txt.drop skipped)).map some

/-- The characters of the text from here on that a match takes. -/
def Match.taken (txt : List Char) (found : Match) : Nat := txt.length - found.rest.length

/-- `skip` characters of the text belong to the last match.  An empty match takes the character
behind it along. -/
def gmatchFrom (items : List Item) (total : Nat) :
    Nat → Char → List Char → Except Error (List (List Char))
  | 0, previous, [] =>
      match matchItems items previous [] [] with
      | .error e => .error e
      | .ok none => .ok []
      | .ok (some found) => (found.value total []).map fun value => [value]
  | _ + 1, _, [] => .ok []
  | 0, previous, c :: rest =>
      match matchItems items previous (c :: rest) [] with
      | .error e => .error e
      | .ok none => gmatchFrom items total 0 c rest
      | .ok (some found) => do
          let value ← found.value total (c :: rest)
          let values ← gmatchFrom items total (found.taken (c :: rest) - 1) c rest
          return value :: values
  | skip + 1, _, c :: rest => gmatchFrom items total skip c rest

/-- What `string.gmatch` gives one after the other. -/
def gmatch (txt pattern : List Char) : Except Error (List (List Char)) :=
  gmatchFrom (parse pattern) txt.length 0 '\x00' txt

/-- As `gmatchFrom`, with what replaces the matches; a character behind an empty match stays. -/
def gsubFrom (items : List Item) (replacement : List Char) :
    Nat → Char → List Char → Except Error (List Char)
  | 0, previous, [] =>
      match matchItems items previous [] [] with
      | .error e => .error e
      | .ok none => .ok []
      | .ok (some _) => .ok replacement
  | _ + 1, _, [] => .ok []
  | 0, previous, c :: rest =>
      match matchItems items previous (c :: rest) [] with
      | .error e => .error e
      | .ok none => (gsubFrom items replacement 0 c rest).map (c :: ·)
      | .ok (some found) =>
          match found.taken (c :: rest) with
          | 0 => (gsubFrom items replacement 0 c rest).map (replacement ++ c :: ·)
          | taken + 1 => (gsubFrom items replacement taken c rest).map (replacement ++ ·)
  | skip + 1, _, c :: rest => gsubFrom items replacement skip c rest

/-- The text of `string.gsub`, for a replacement without `%`. -/
def gsub (txt pattern replacement : List Char) : Except Error (List Char) :=
  match anchor pattern with
  | (false, pattern) => gsubFrom (parse pattern) replacement 0 '\x00' txt
  | (true, pattern) =>
      match matchItems (parse pattern) '\x00' txt [] with
      | .error e => .error e
      | .ok none => .ok txt
      | .ok (some found) => .ok (replacement ++ found.rest)

end Lua
