/-
Splitting a URL as `urllib.parse.urlsplit` does.

The order of the cuts is the library's: leading control characters and blanks go
first, then tabs and line breaks anywhere, then the scheme, the authority behind
`//`, the fragment and the query.  The one part not spelled out is the check of
an authority that is bracketed or not ASCII, which needs the address grammar and
the Unicode normalisation tables.  It only decides whether the split raises, and
is the parameter `netlocOk`.
-/
import AdaptiveGateway.Codec.Text

namespace Codec

namespace Url

structure Split where
  scheme : Text
  netloc : Text
  path : Text
  query : Text
  fragment : Text
deriving DecidableEq, Repr

/-- `_WHATWG_C0_CONTROL_OR_SPACE`. -/
def isC0OrSpace (c : Char) : Bool := decide (c.toNat ≤ 32)

/-- `_UNSAFE_URL_BYTES_TO_REMOVE`. -/
def isUnsafe (c : Char) : Bool := c == '\t' || c == '\r' || c == '\n'

def isSchemeChar (c : Char) : Bool :=
  isAsciiAlpha c || isAsciiDigit c || c == '+' || c == '-' || c == '.'

/-- The scheme and what follows its colon, when the text starts with one. -/
def splitScheme (t : Text) : Text × Text :=
  let head := t.takeWhile (· != ':')
  match t.drop head.length with
  | ':' :: rest =>
    if (head.take 1).any isAsciiAlpha && head.all isSchemeChar then (lower head, rest) else ([], t)
  | _ => ([], t)

def isNetlocEnd (c : Char) : Bool := c == '/' || c == '?' || c == '#'

def splitNetloc : Text → Text × Text
  | '/' :: '/' :: t => (t.takeWhile (!isNetlocEnd ·), t.dropWhile (!isNetlocEnd ·))
  | t => ([], t)

def isAscii (t : Text) : Bool := t.all fun c => decide (c.toNat < 128)

/-- The check of the authority, with brackets matched here and the rest left to
`netlocOk`. -/
def checkNetloc (netlocOk : Text → Bool) (n : Text) : Bool :=
  if n.contains '[' || n.contains ']' then n.contains '[' && n.contains ']' && netlocOk n
  else isAscii n || netlocOk n

/-- `urlsplit(url)`; `none` where it raises `ValueError`. -/
def urlsplit (netlocOk : Text → Bool) (url : Text) : Option Split :=
  let t := (url.dropWhile isC0OrSpace).filter (!isUnsafe ·)
  let s := splitScheme t
  let n := splitNetloc s.2
  if checkNetloc netlocOk n.1 then
    let f := partition '#' n.2
    let q := partition '?' f.1
    some ⟨s.1, n.1, q.1, q.2, f.2⟩
  else none

example : urlsplit (fun _ => true) "http://mock.test/items?q=1".toList =
    some ⟨"http".toList, "mock.test".toList, "/items".toList, "q=1".toList, []⟩ := by decide

/-! ## The authority -/

/-- `hostname` and the text of the port: what follows the last `@`, cut at the colon
or at the bracket. -/
def hostPort (netloc : Text) : Text × Text :=
  let hostinfo := (netloc.reverse.takeWhile (· != '@')).reverse
  if hostinfo.contains '[' then
    let bracketed := partition ']' (partition '[' hostinfo).2
    (bracketed.1, (partition ':' bracketed.2).2)
  else partition ':' hostinfo

/-- `port` does not raise. -/
def portOk (port : Text) : Bool :=
  port.all isAsciiDigit &&
    decide (port.foldl (fun n c => n * 10 + (c.toNat - 48)) 0 ≤ 65535)

/-! ## Quoting -/

/-- The characters that `quote` always leaves alone. -/
def isUnreserved (c : Char) : Bool :=
  isAsciiAlpha c || isAsciiDigit c || c == '_' || c == '.' || c == '-' || c == '~'

def hexUpper (d : Nat) : Char := Char.ofNat (if d < 10 then 48 + d else 55 + d)

/-- `urllib.parse.quote(t, safe)`. -/
def quote (safe t : Text) : Text :=
  (utf8 t).flatMap fun b =>
    let c := Char.ofNat b.toNat
    if isUnreserved c || safe.contains c then [c]
    else ['%', hexUpper (b.toNat / 16), hexUpper (b.toNat % 16)]

end Url

end Codec
