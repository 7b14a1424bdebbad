import Mycelium.Lib.Regex
import Mycelium.Common.Path

/-!
# URLs

`class Url`: the split by the regular expression `RE_URL`, the validating expressions, the
component setters and getters, `assign`, `normalize` and `merge_ref`.

The default build of the repository defines `NDEBUG`, so that the `assert`s of the source are no
code.  A setter that throws is modelled by its exception alone.
-/

namespace Mycelium

open Lib

/-- `class Url`. -/
structure Url where
  path : Path := {}
  scheme : Str := []
  hasAuthority : Bool := false
  hostIpLiteral : Bool := false
  userinfo : Str := []
  host : Str := []
  port : Str := []
  query : Str := []
  fragment : Str := []
deriving DecidableEq, Repr

namespace Url

/-! ### The regular expressions -/

/-- The groups of a match of `RE_URL`,
`^(([^:/?#]+):)?(//([^/?#]*)|///)?([^?#]*)(\?[^#]*)?(#.*)?`. -/
structure Match where
  scheme : Option Str
  /-- The group `([^/?#]*)` after the two slashes; the group around both is `//` and this. -/
  authority : Option Str
  path : Str
  query : Option Str
  fragment : Option Str
deriving DecidableEq, Repr

def isSchemeDelim (c : UInt8) : Bool :=
  c == Byte.colon || c == Byte.slash || c == Byte.question || c == Byte.hash

def isAuthorityDelim (c : UInt8) : Bool :=
  c == Byte.slash || c == Byte.question || c == Byte.hash

def isPathDelim (c : UInt8) : Bool := c == Byte.question || c == Byte.hash

/-- The groups `(\?[^#]*)?(#.*)?` on the rest of the string after the path. -/
def matchTail (s : Str) : Option Str × Option Str :=
  let q := s.takeWhile (· != Byte.hash)
  let f := s.dropWhile (· != Byte.hash)
  (if q.isEmpty then none else some q, if f.isEmpty then none else some f)

/-- The groups from `(//([^/?#]*)|///)?` on. -/
def matchHier (scheme : Option Str) (s : Str) : Match :=
  let a := match s with
    | c :: d :: rest =>
        if c == Byte.slash && d == Byte.slash then
          (some (rest.takeWhile (!isAuthorityDelim ·)), rest.dropWhile (!isAuthorityDelim ·))
        else (none, s)
    | _ => (none, s)
  let tail := matchTail (a.2.dropWhile (!isPathDelim ·))
  { scheme := scheme
    authority := a.1
    path := a.2.takeWhile (!isPathDelim ·)
    query := tail.1
    fragment := tail.2 }

/-- `regex_match(s, match, url_re)`.  Every group takes what it can from left to right, and what
is left over is always matched by the later groups, so that no choice is ever revised: every
string matches, and the alternative `///` is not used. -/
def regexMatch (s : Str) : Match :=
  let sch := s.takeWhile (!isSchemeDelim ·)
  match s.dropWhile (!isSchemeDelim ·) with
  | c :: rest =>
      if c == Byte.colon && !sch.isEmpty then matchHier (some sch) rest else matchHier none s
  | [] => matchHier none s

def digit : Regex UInt8 := .cls isDigit
def xdigit : Regex UInt8 := .cls isXDigit
def alnum : Regex UInt8 := .cls isAlnum

/-- A bracket expression `[[:alnum:]…]`. -/
def alnumOr (extra : Str) : Regex UInt8 := .cls fun c => isAlnum c || extra.contains c

/-- A bracket expression `[a-b]`. -/
def range (a b : UInt8) : Regex UInt8 := .cls fun c => a ≤ c && c ≤ b

/-- A literal string. -/
def word (s : Str) : Regex UInt8 := .cat (s.map .chr)

/-- `RE_SCHEME`, `^[[:alpha:]][[:alnum:]+.-]*$`. -/
def reScheme : Regex UInt8 := .seq (.cls isAlpha) (.star (alnumOr (lit "+.-")))

/-- `RE_HOST`, `^[[:alnum:]]([[:alnum:].-]*[[:alnum:].])?$`. -/
def reHost : Regex UInt8 :=
  .seq alnum (.opt (.seq (.star (alnumOr (lit ".-"))) (alnumOr (lit "."))))

/-- `RE_PORT`, `^\d{1,5}$`. -/
def rePort : Regex UInt8 := .seq digit (.upTo digit 4)

/-- `RE_IPVFUT`, `^v[[:xdigit:]]\.1[[:alnum:]._~!$&'()*+,;=:-]*$`. -/
def reIpvfut : Regex UInt8 :=
  .cat [word (lit "v"), xdigit, word (lit ".1"), .star (alnumOr (lit "._~!$&'()*+,;=:-"))]

/-- The macro `decoct`, `([01]?[0-9]?[0-9]|2[0-4][0-0]|25[0-5])`. -/
def decoct : Regex UInt8 :=
  .any [.cat [.opt (range 0x30 0x31), .opt digit, digit],
    .cat [word (lit "2"), range 0x30 0x34, range 0x30 0x30],
    .cat [word (lit "25"), range 0x30 0x35]]

/-- `RE_IPV4`. -/
def reIpv4 : Regex UInt8 :=
  .cat [decoct, word (lit "."), decoct, word (lit "."), decoct, word (lit "."), decoct]

/-- The macro `h16`, `([[:xdigit:]]{1,4})`. -/
def h16 : Regex UInt8 := .seq xdigit (.upTo xdigit 3)

/-- `h16 ":"`. -/
def h16Colon : Regex UInt8 := .seq h16 (word (lit ":"))

/-- The macro `ls32`. -/
def ls32 : Regex UInt8 := .any [.cat [h16Colon, h16], reIpv4]

/-- The part `((h16 ":"){0,n} h16)? "::"` of the lines of the macro `ipv6`. -/
def ipv6Front (n : ℕ) : Regex UInt8 :=
  .cat [.opt (.seq (.upTo h16Colon n) h16), word (lit "::")]

/-- `RE_IPV6`. -/
def reIpv6 : Regex UInt8 :=
  .any [.seq (.rep h16Colon 6) ls32,
    .cat [word (lit "::"), .rep h16Colon 5, ls32],
    .cat [ipv6Front 0, .rep h16Colon 4, ls32],
    .cat [ipv6Front 1, .rep h16Colon 3, ls32],
    .cat [ipv6Front 2, .rep h16Colon 2, ls32],
    .cat [ipv6Front 3, .rep h16Colon 1, ls32],
    .cat [ipv6Front 4, ls32],
    .cat [ipv6Front 5, h16],
    ipv6Front 6]

/-- `Url::valid_host(h)`. -/
def validHost (h : Str) : Bool :=
  h.isEmpty ||
    let host := unescapeSafe h
    reHost.accepts host || reIpvfut.accepts host || reIpv6.accepts host || reIpv4.accepts host

/-! ### Getters -/

/-- `Url::authority()`. -/
def authority (u : Url) : Str :=
  if u.host.isEmpty then []
  else
    (if u.userinfo.isEmpty then [] else u.userinfo ++ [Byte.atSign])
      ++ (if u.hostIpLiteral then Byte.lbracket :: u.host ++ [Byte.rbracket] else u.host)
      ++ (if u.port.isEmpty then [] else Byte.colon :: u.port)

/-- `Url::get`. -/
def get (u : Url) : Str :=
  (if u.scheme.isEmpty then [] else u.scheme ++ [Byte.colon])
    ++ (if u.hasAuthority then Byte.slash :: Byte.slash :: u.authority else [])
    ++ u.path.get ++ u.query ++ u.fragment

/-- `Url::absolute`. -/
def absolute (u : Url) : Bool := !u.scheme.isEmpty

/-- `Url::has_scheme`. -/
def hasScheme (u : Url) : Bool := !u.scheme.isEmpty

/-- `Url::has_query`. -/
def hasQuery (u : Url) : Bool := !u.query.isEmpty

/-- `Url::has_fragment`. -/
def hasFragment (u : Url) : Bool := !u.fragment.isEmpty

/-- `Url::empty`. -/
def empty (u : Url) : Bool :=
  !(!u.scheme.isEmpty || u.hasAuthority || !u.path.empty || u.hasQuery || u.hasFragment)

/-- `Url::syntax_ok`. -/
def syntaxOk (u : Url) : Bool :=
  !(u.hasAuthority && !(u.path.empty || u.path.slashBegin)) &&
    !u.scheme.any isSchemeDelim &&
    !u.host.any isAuthorityDelim &&
    validHost u.host &&
    !u.path.get.any isPathDelim &&
    !u.query.any (· == Byte.hash)

/-! ### Setters -/

/-- `Url::scheme(s)`. -/
def setScheme (u : Url) (s : Str) : Except Exn Url :=
  if reScheme.accepts s then .ok { u with scheme := s.map toLower, hasAuthority := true }
  else .error (.urlParseError
    (lit "scheme: " ++ s ++ lit " doesn't match scheme validation regex"))

/-- `Url::userinfo(s)`. -/
def setUserinfo (u : Url) (s : Str) : Url := { u with userinfo := escape s urlCharAuth }

/-- `Url::host(s)`. -/
def setHost (u : Url) (s : Str) : Except Exn Url :=
  let norm := escape s urlCharAuth
  if validHost norm then .ok { u with host := norm, hasAuthority := true }
  else .error (.urlParseError (lit "Url::host(" ++ s ++ lit "): Invalid host"))

/-- The number that `is >> port` reads from a string of digits. -/
def portNum (s : Str) : ℕ := s.foldl (fun n c => n * 10 + (c - 0x30).toNat) 0

/-- `Url::port(s)`.  Five digits always fit an `int`, so that the stream does not fail. -/
def setPort (u : Url) (s : Str) : Except Exn Url :=
  if s.isEmpty then .ok { u with port := [] }
  else if !rePort.accepts s then
    .error (.urlParseError (lit "Url::port(" ++ s ++ lit "): Invalid port: regex didn't match"))
  else if !(portNum s < 65536 && portNum s > 0) then
    .error (.urlParseError (lit "Url::port(" ++ s ++ lit "): out of range (0,2^16)"))
  else .ok { u with port := s }

/-- The part of `Url::authority(s)` after the userinfo; `h` is the text from `host_b` on. -/
def setHostPort (u : Url) (s h : Str) : Except Exn Url :=
  match h with
  | c :: rest =>
      if c = Byte.lbracket then
        if rest.isEmpty then
          .error (.urlParseError
            (lit "authority incomplete host part, nothing follows '[': " ++ s))
        else if rest.contains Byte.rbracket then
          -- what follows the bracket is not looked at
          setHost { u with hostIpLiteral := true } (rest.takeWhile (· != Byte.rbracket))
        else
          .error (.urlParseError (lit "authority incomplete host part, couldn't find closing ']':"
            ++ rest ++ lit " : " ++ s))
      else
        match h.dropWhile (· != Byte.colon) with
        | [] => setHost u h
        | _ :: port =>
            if c = Byte.colon then
              .error (.urlParseError (lit "authority starts with : without @ part"))
            else do
              let u ← setHost u (h.takeWhile (· != Byte.colon))
              if port.isEmpty then .error (.urlParseError (lit "no port number after :"))
              else setPort u port
  | [] => setHost u []

/-- `Url::authority(s)`. -/
def setAuthority (u : Url) (s : Str) : Except Exn Url :=
  match s.dropWhile (· != Byte.atSign) with
  | [] => setHostPort u s s
  | _ :: h =>
      if h.isEmpty then .error (.urlParseError (lit "authority doesn't have host part: " ++ s))
      else setHostPort (u.setUserinfo (s.takeWhile (· != Byte.atSign))) s h

/-- `Url::path(s)`. -/
def setPath (u : Url) (s : Str) : Url :=
  let p := Path.assign (escape s urlCharPath)
  { u with path := if u.hasAuthority then p.setAbsolute true else p }

/-- `Url::query(s)`. -/
def setQuery (u : Url) (s : Str) : Url := { u with query := escape s urlCharQuery }

/-- `Url::fragment(s)`. -/
def setFragment (u : Url) (s : Str) : Url := { u with fragment := escape s urlCharFragment }

/-- `Url::clear_query`. -/
def clearQuery (u : Url) : Url := { u with query := [] }

/-- `Url::clear_fragment`. -/
def clearFragment (u : Url) : Url := { u with fragment := [] }

/-! ### Parsing and normalizing -/

/-- `if( match[SCHEME].matched ) scheme(…)`, on the URL that `clear()` has reset. -/
def assignScheme : Option Str → Except Exn Url
  | some s => setScheme {} s
  | none => .ok {}

/-- `if( match[AUTHORITY].matched ) authority(…)`. -/
def assignAuthority (u : Url) : Option Str → Except Exn Url
  | some a => u.setAuthority a
  | none => .ok u

/-- `if( match[QUERY].matched ) query(…)`. -/
def assignQuery (u : Url) : Option Str → Url
  | some q => u.setQuery q
  | none => u

/-- `if( match[FRAGMENT].matched ) fragment(…)`. -/
def assignFragment (u : Url) : Option Str → Url
  | some f => u.setFragment f
  | none => u

/-- The two checks at the end of `Url::assign(s)`. -/
def assignCheck (u : Url) : Except Exn Url :=
  if !u.syntaxOk then
    .error (.urlParseError (lit " ! syntax_ok() for this url, sanity checks failed"))
  else if !validHost u.host then
    .error (.urlParseError (lit " ! valid_host() for this url, sanity checks failed"))
  else .ok u

/-- `Url::assign(s)`, from the groups of the match on. -/
def assignMatch (m : Match) : Except Exn Url := do
  let u ← assignScheme m.scheme
  -- the scheme has been set, with the flag for an authority
  if m.authority = some [] ∧ u.scheme ≠ [] ∧ u.scheme ≠ lit "file" then
    .error (.urlParseError
      (lit "empty authority part, with // is not allowed for schemes other than 'file'"))
  else
    let u ← u.assignAuthority m.authority
    assignCheck (((u.setPath m.path).assignQuery m.query).assignFragment m.fragment)

/-- `Url::assign(s)`, and the constructor `Url(s)`. -/
def assign (s : Str) : Except Exn Url := assignMatch (regexMatch s)

/-- `Url::normalize_scheme`. -/
def normalizeScheme (u : Url) : Url := { u with scheme := u.scheme.map toLower }

/-- `Url::normalize_host`. -/
def normalizeHost (u : Url) : Url := { u with host := u.host.map toLower }

/-- `Url::normalize_escapes()`. -/
def normalizeEscapes (u : Url) : Except Exn Url :=
  match assign (Mycelium.normalizeEscapes u.get) with
  | .ok v => .ok v
  | .error (.urlParseError w) => .error (.runtimeError (lit "normalize_escapes: " ++ w))
  | .error e => .error e

/-- `Url::normalize_path`. -/
def normalizePath (u : Url) : Url := { u with path := u.path.normalize }

/-- `Url::normalize`. -/
def normalize (u : Url) : Except Exn Url := do
  let v ← u.normalizeScheme.normalizeHost.normalizeEscapes
  .ok v.normalizePath

/-- `Url::operator==`. -/
def eq (lhs rhs : Url) : Except Exn Bool := do
  let rhs ← rhs.normalize
  let lhs ← lhs.normalize
  .ok (rhs.get = lhs.get)

/-! ### Reference resolution -/

/-- `Url::merge_ref`. -/
def mergeRef (this u : Url) : Except Exn Url :=
  if !u.syntaxOk then .error (.badUrl (lit "supplied url ! syntax_ok"))
  else if this.absolute && !u.absolute then do
    let this ←
      if u.hasScheme then do
        let this ← setScheme {} u.scheme
        let this ← if u.hasAuthority then this.setAuthority u.authority else .ok this
        .ok ((this.setPath u.path.get).setQuery u.query)
      else if u.hasAuthority then do
        let this ← this.setAuthority u.authority
        let this := this.setPath u.path.get
        -- the call of `clear_query` is commented out
        .ok (if u.hasQuery then this.setQuery u.query else this)
      else
        let this :=
          if u.path.empty then
            if u.hasQuery then this.setQuery u.query else this
          else
            let this := { this with path := this.path.merge u.path }
            if u.hasQuery then this.setQuery u.query else this.clearQuery
        .ok (if u.hasFragment then this.setFragment u.fragment else this.clearFragment)
    .ok (if u.hasFragment then this.setFragment u.fragment else this.clearFragment)
  else if !this.absolute && u.absolute then
    .error (.runtimeError (lit "Can only merge an absolute url with a reference"))
  else if this.absolute && u.absolute then
    .error (.runtimeError (lit "Can't merge two absolute urls"))
  else .error (.runtimeError (lit "Can't merge two relative references"))

end Url

end Mycelium
