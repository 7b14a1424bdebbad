import Mycelium.Common.HttpHeaders
import Mycelium.Common.Url

/-!
# The callbacks of the HTML lexer

The generated scanner collects the tokens of a tag, or one run of character data, and hands each
such group to `HTML_lexer::process`, which looks up the callback of the tag.  The callbacks write
the text of the document to `txtout` and its links to `lnkout` and fill in the analysis.

The lexer is modelled as `html_lex` sets it up: the streams are there and in order, and there is an
analysis to fill in.  `lnkout` is kept as the sequence of the links that are written to it.
-/

namespace Mycelium

/-- `SGML_tok_t`. -/
inductive SgmlTok where
  | eof | data | start | end_ | tagc | attrname | name | number | nmtoken | literal
  | geref | numcharref | refc | pi | markupDecl | comment | limitation | error | warning
deriving DecidableEq, Repr

/-- `HTML_lexer::Token`. -/
structure Token where
  type : SgmlTok
  content : Str
deriving DecidableEq, Repr

/-- `struct link`. -/
structure Link where
  url : Str := []
  txt : Str := []
deriving DecidableEq, Repr

/-- `class Analysis`. -/
structure Analysis where
  title : Str := []
  rss2 : Str := []
  rss : Str := []
  atom : Str := []
  charset : Str := []
  index : Bool := true
  follow : Bool := true
deriving DecidableEq, Repr

/-- `HTML_lexer`, without the tables of callbacks, which never change. -/
structure HtmlLexer where
  baseUrl : Url := {}
  txtout : Str := []
  lnkout : List Link := []
  warnings : Str := []
  analysis : Analysis := {}
  didWordBreak : Bool := false
  /-- `FLAG_GET_TEXT`: text will be indexed. -/
  getText : Bool := false
  /-- `FLAG_GET_TITLE`. -/
  getTitle : Bool := false
  /-- `FLAG_INLINK`: inside a link. -/
  inlink : Bool := false
  /-- `FLAG_LINK_NOFOLLOW`. -/
  linkNofollow : Bool := false
  curlink : Link := {}

namespace HtmlLexer

/-- The constructor; without a base URL the argument is a null pointer. -/
def construct (baseUrl : Option Str) (getTextIfBodyTagOnly : Bool) : Except Exn HtmlLexer :=
  match baseUrl with
  | none => .ok { getText := !getTextIfBodyTagOnly }
  | some b => do
      let base ← Url.assign b
      if base.absolute then .ok { baseUrl := base, getText := !getTextIfBodyTagOnly }
      else .error (.runtimeError (lit "base_url: " ++ b ++ lit " is not absolute\n"))

/-! ### Text and links -/

def textAdd (s : HtmlLexer) (text : Str) : HtmlLexer :=
  let analysis :=
    if s.getTitle then { s.analysis with title := s.analysis.title ++ text } else s.analysis
  { s with analysis := analysis, txtout := s.txtout ++ text, didWordBreak := false }

def textWordBreak (s : HtmlLexer) : HtmlLexer :=
  if s.didWordBreak then s
  else { s with txtout := s.txtout ++ lit "\n", didWordBreak := true }

/-- What `link_add` and `op_link` do with a reference inside their `try` block. -/
def resolve (base : Url) (link : Str) : Except Exn Str := do
  let url ← Url.assign link
  let url ← url.normalize
  if url.absolute then .ok url.get
  else do
    let full ← base.mergeRef url
    .ok full.get

/-- `link_add`.  Everything that the URL functions throw is a `runtime_error`. -/
def linkAdd (s : HtmlLexer) (link : Str) : HtmlLexer :=
  if s.baseUrl.empty then { s with curlink := { s.curlink with url := link } }
  else
    match resolve s.baseUrl link with
    | .ok url => { s with curlink := { s.curlink with url := url } }
    | .error _ => { s with curlink := {} }

def linkTextAdd (s : HtmlLexer) (text : Str) : HtmlLexer :=
  let s := s.textAdd text
  { s with curlink := { s.curlink with txt := s.curlink.txt ++ text } }

def linkTextWordBreak (s : HtmlLexer) : HtmlLexer :=
  { s with curlink := { s.curlink with txt := s.curlink.txt ++ lit " " } }

def submitLink (s : HtmlLexer) : HtmlLexer :=
  { s with
    lnkout := if s.curlink.url.isEmpty then s.lnkout else s.lnkout ++ [s.curlink]
    curlink := {} }

def wordBreak (s : HtmlLexer) : HtmlLexer :=
  if s.getText then if s.inlink then s.linkTextWordBreak else s.textWordBreak else s

/-! ### Attributes -/

/-- The token names an attribute that starts with `word`: the callbacks compare only as many
characters of the name as `word` has. -/
def begins (i : Token) (word : Str) : Bool :=
  i.type = .attrname && i.content.take word.length = word

/-- The loop of `op_a` and `op_frame` over the tokens of a group, each with the one after it. -/
def forTokens (body : HtmlLexer → Token → Option Token → HtmlLexer) (s : HtmlLexer) :
    List Token → HtmlLexer
  | [] => s
  | i :: rest => forTokens body (body s i rest.head?) rest

/-- `tag_map`: the attributes that have a literal. -/
def tagMap : List Token → List (Str × Str)
  | i :: j :: rest =>
      let m := tagMap (j :: rest)
      if i.type = .attrname ∧ j.type = .literal then (i.content, j.content) :: m else m
  | _ => []

/-- The value of an attribute in the map: a later attribute of the same name overwrites it. -/
def tagFind (tokens : List Token) (name : Str) : Option Str := (tagMap tokens).reverse.lookup name

/-! ### Anchors and frames -/

/-- A token of `rel` asks not to follow the link. -/
def relNofollow (content : Str) : Bool :=
  (tokenize (lit "\" ") content).any fun tok => tok.map toLower = lit "nofollow"

/-- The body of the loop of `op_a`.  For a `href` at the end of the group it prints to `cerr`. -/
def opAToken (s : HtmlLexer) (i : Token) : Option Token → HtmlLexer
  | some ⟨.literal, content⟩ =>
      if begins i (lit "href") then { s.linkAdd content with inlink := true }
      else if begins i (lit "rel") then
        { s with linkNofollow := s.linkNofollow || relNofollow content }
      else s
  | _ => s

def opA (s : HtmlLexer) (tokens : List Token) : HtmlLexer :=
  if s.getText then forTokens opAToken s tokens else s

def opAC (s : HtmlLexer) (_ : List Token) : HtmlLexer :=
  if s.linkNofollow then { s with inlink := false, linkNofollow := false }
  else if s.inlink then { s.submitLink with inlink := false }
  else s

/-- The body of the loop of `op_frame`. -/
def opFrameToken (s : HtmlLexer) (i : Token) : Option Token → HtmlLexer
  | some ⟨.literal, content⟩ =>
      if begins i (lit "src") then { s.linkAdd content with inlink := true } else s
  | _ => s

def opFrame (s : HtmlLexer) (tokens : List Token) : HtmlLexer :=
  if s.getText then (forTokens opFrameToken s tokens).wordBreak else s

def opFrameC (s : HtmlLexer) (_ : List Token) : HtmlLexer :=
  let s := if s.inlink then { s.submitLink with inlink := false } else s
  s.wordBreak

/-! ### Elements that turn the text on and off -/

def opBody (s : HtmlLexer) (_ : List Token) : HtmlLexer := { s with getText := true }.wordBreak

def opBodyC (s : HtmlLexer) (_ : List Token) : HtmlLexer := { s with getText := false }

def opTitle (s : HtmlLexer) (_ : List Token) : HtmlLexer :=
  { s with getText := true, getTitle := true }

def opTitleC (s : HtmlLexer) (_ : List Token) : HtmlLexer :=
  { s with getTitle := false, getText := false }

/-- `op_script` and `op_style`. -/
def opScript (s : HtmlLexer) (_ : List Token) : HtmlLexer := { s with getText := false }

/-- `op_script_c` and `op_style_c`. -/
def opScriptC (s : HtmlLexer) (_ : List Token) : HtmlLexer := { s with getText := true }

/-! ### Meta information -/

/-- `meta_name_robots`; "all" and "none" end the loop. -/
def metaNameRobots (a : Analysis) : List Str → Analysis
  | [] => a
  | tok :: toks =>
      let tok := tok.map toLower
      if tok = lit "index" then metaNameRobots { a with index := true } toks
      else if tok = lit "follow" then metaNameRobots { a with follow := true } toks
      else if tok = lit "all" then { a with follow := true, index := true }
      else if tok = lit "noindex" then metaNameRobots { a with index := false } toks
      else if tok = lit "nofollow" then metaNameRobots { a with follow := false } toks
      else if tok = lit "none" then { a with follow := false, index := false }
      else metaNameRobots a toks

/-- Where `^` matches: at the start of the text and after the end of a line. -/
def lineStart (prev : Option UInt8) (c : UInt8) : Bool :=
  match prev with
  | none => true
  | some p => (p == 0x0A || p == 0x0C || p == 0x0D) && !(p == 0x0D && c == 0x0A)

/-- The first match of `META_REFRESH_RE`, `^\d+; url=(.+)$` in any letter case.  A dot matches the
end of a line too, so that the group reaches to the end of the text. -/
def refreshSearch (prev : Option UInt8) : Str → Option Str
  | [] => none
  | c :: s =>
      let rest := (c :: s).dropWhile isDigit
      if lineStart prev c && isDigit c && iequals (rest.take 6) (lit "; url=")
          && !(rest.drop 6).isEmpty then some (rest.drop 6)
      else refreshSearch (some c) s

/-- The part of `op_meta` for `http-equiv`. -/
def metaHttpEquiv (s : HtmlLexer) (httpEquiv : Str) (content : Option Str) : HtmlLexer :=
  match content with
  | none => s
  | some content =>
      if iequals httpEquiv (lit "content-type") then
        match charsetSearch content with
        | some m => { s with analysis := { s.analysis with charset := trim m } }
        | none => s
      else if iequals httpEquiv (lit "refresh") then
        match refreshSearch none content with
        | some m => (s.linkAdd m).submitLink
        | none => s
      else s

def opMeta (s : HtmlLexer) (tokens : List Token) : HtmlLexer :=
  let s :=
    match tagFind tokens (lit "name"), tagFind tokens (lit "content") with
    | some name, some content =>
        if iequals name (lit "robots") then
          { s with analysis := metaNameRobots s.analysis (tokenize (lit ", ") content) }
        else s
    | _, _ => s
  match tagFind tokens (lit "http-equiv") with
  | some httpEquiv => s.metaHttpEquiv httpEquiv (tagFind tokens (lit "content"))
  | none => s

/-- The warning of `op_link` about a reference that cannot be resolved. -/
def linkRelWarning (e : Exn) (href : Str) (base : Url) : Str :=
  let text (cls what : Str) : Str :=
    cls ++ lit " exception (link rel): " ++ what ++ lit " href: " ++ href ++ lit " base_url: "
      ++ base.get
  match e with
  | .urlParseError what | .badUrl what => text (lit "BadUrl") what
  | .runtimeError what | .dbException what | .logicError what => text (lit "runtime_error") what

/-- The `href` of a feed, resolved if there is a base URL, and the warnings. -/
def feedHref (base : Url) (href : Str) : Str × Str :=
  if base.empty then (href, [])
  else
    match resolve base href with
    | .ok url => (url, [])
    | .error e => (href, linkRelWarning e href base)

def opLink (s : HtmlLexer) (tokens : List Token) : HtmlLexer :=
  match tagFind tokens (lit "href"), tagFind tokens (lit "rel"), tagFind tokens (lit "type") with
  | some href, some rel, some type =>
      if iequals rel (lit "alternate") then
        let (href, warning) := feedHref s.baseUrl (trim href)
        let a := s.analysis
        let a :=
          if iequals type (lit "application/rss+xml") then { a with rss2 := href }
          else if iequals type (lit "application/atom+xml") then { a with atom := href }
          else if iequals type (lit "text/xml") then { a with rss := href }
          else a
        { s with analysis := a, warnings := s.warnings ++ warning }
      else s
  | _, _, _ => s

def opLinkC (s : HtmlLexer) (_ : List Token) : HtmlLexer := s

/-! ### Dispatch -/

/-- The elements whose start tag and end tag have `word_break` as callback. -/
def wordBreakTags : List Str :=
  ["applet", "base", "blockquote", "br", "button", "caption", "dd", "div", "dfn", "dl", "dt",
    "fieldset", "form", "h1", "head", "hr", "img", "input", "li", "map", "menu", "noframes",
    "object", "ol", "optgroup", "option", "p", "param", "pre", "q", "samp", "select", "table",
    "tbody", "td", "textarea", "tfoot", "th", "thead", "tr", "tt", "ul", "xmp"].map lit

/-- `word_break` as a callback. -/
def opWordBreak (s : HtmlLexer) (_ : List Token) : HtmlLexer := s.wordBreak

/-- The table `stag_op`. -/
def stagOp : List (Str × (HtmlLexer → List Token → HtmlLexer)) :=
  [(lit "body", opBody), (lit "a", opA), (lit "frame", opFrame), (lit "iframe", opFrame),
    (lit "script", opScript), (lit "style", opScript), (lit "link", opLink), (lit "meta", opMeta),
    (lit "title", opTitle)] ++ wordBreakTags.map (·, opWordBreak)

/-- The table `ctag_op`. -/
def ctagOp : List (Str × (HtmlLexer → List Token → HtmlLexer)) :=
  [(lit "body", opBodyC), (lit "a", opAC), (lit "frame", opFrameC), (lit "iframe", opFrameC),
    (lit "script", opScriptC), (lit "style", opScriptC), (lit "link", opLinkC),
    (lit "meta", opWordBreak), (lit "title", opTitleC)] ++ wordBreakTags.map (·, opWordBreak)

/-- The callback of a tag, if there is one, applied to the group. -/
def callback (table : List (Str × (HtmlLexer → List Token → HtmlLexer))) (s : HtmlLexer)
    (tokens : List Token) (name : Str) : HtmlLexer :=
  match table.lookup name with
  | some op => op s tokens
  | none => s

/-- `process`, on the tokens that the scanner has added since the last call. -/
def process (s : HtmlLexer) (tokens : List Token) : HtmlLexer :=
  match tokens with
  | [] => s
  | cur :: _ =>
      match cur.type with
      | .start => callback stagOp s tokens cur.content
      | .end_ => callback ctagOp s tokens cur.content
      | .data =>
          if s.getText then if s.inlink then s.linkTextAdd cur.content else s.textAdd cur.content
          else s
      | _ => s

end HtmlLexer

end Mycelium
