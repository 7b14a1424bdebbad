import Mycelium.Common.Escape

/-!
# robots.txt

The records of a parsed `robots.txt` and `Robots::path_allowed`, three nested loops over the
records, their user agents and their rules.  The documentation of `path_allowed` promises that a
path matches when a rule is a prefix of it; the code compares for equality, and what follows from
the difference is made exact.  The first record that names the user agent or `*` decides, so that a
default record can stand in the way of the one for the user agent.
-/

namespace Mycelium

namespace Robots

/-! ### The records -/

/-- `rule_type_t`. -/
inductive RuleType where
  | disallow
  | allow
  | crawlDelay
deriving DecidableEq, Repr

/-- `struct Rule`. -/
structure Rule where
  type : RuleType := .disallow
  str : Str := []
deriving DecidableEq, Repr

/-- `struct Uas_rules`: the user agents of a record and its rules. -/
structure UasRules where
  ua : List Str := []
  rules : List Rule := []
deriving DecidableEq, Repr

/-- `robots_state_t`. -/
inductive State where
  | empty
  | present
  | notAvailable
  | eparse
deriving DecidableEq, Repr

/-- `struct Robots_entry`, with the records of the parser. -/
structure Entry where
  state : State := .empty
  uasRulesAll : List UasRules := []
deriving DecidableEq, Repr

/-- `Robots_entry::tried_but_failed`. -/
def Entry.triedButFailed (e : Entry) : Bool := e.state == .notAvailable || e.state == .eparse

/-! ### The loops -/

/-- `s.compare(pos, len, t) == 0`: the part of `s` is compared with the whole of `t`. -/
def compareEq (s : Str) (pos len : ℕ) (t : Str) : Bool := (s.drop pos).take len == t

/-- The test of a user agent. -/
def uaMatches (userAgent u : Str) : Bool := compareEq u 0 u.length userAgent || u == lit "*"

/-- The loop over the rules of a record. -/
def rulesLoop (path : Str) : List Rule → Bool
  | [] => true
  | r :: rules =>
      if compareEq r.str 0 r.str.length path then r.type == .allow else rulesLoop path rules

/-- The loop over the user agents of the record `i`; the first that matches decides. -/
def uaLoop (userAgent path : Str) (i : UasRules) : List Str → Option Bool
  | [] => none
  | u :: us =>
      if uaMatches userAgent u then some (rulesLoop path i.rules) else uaLoop userAgent path i us

/-- The loop over the records. -/
def recordsLoop (userAgent path : Str) : List UasRules → Bool
  | [] => true
  | i :: records => (uaLoop userAgent path i i.ua).getD (recordsLoop userAgent path records)

/-- The form of a path in which it is compared. -/
def canonical (p : Str) : Str := unescapeNot (escape p urlCharPath) urlCharPath

/-- `Robots::path_allowed`. -/
def pathAllowed (uasRulesAll : List UasRules) (userAgent p : Str) : Bool :=
  recordsLoop userAgent (canonical p) uasRulesAll

/-! ### What the loops decide -/

lemma compareEq_length {s t : Str} : compareEq s 0 s.length t = true ↔ s = t := by
  simp [compareEq]

/-- A record for a user agent: it names the agent or `*`. -/
def appliesTo (userAgent : Str) (i : UasRules) : Bool :=
  i.ua.contains userAgent || i.ua.contains (lit "*")

/-- The first record for a user agent. -/
def firstRecord (userAgent : Str) (records : List UasRules) : Option UasRules :=
  records.find? (appliesTo userAgent)

lemma any_uaMatches (userAgent : Str) (i : UasRules) :
    i.ua.any (uaMatches userAgent) = appliesTo userAgent i := by
  rw [Bool.eq_iff_iff, appliesTo, List.any_eq_true, Bool.or_eq_true, List.contains_iff_mem,
    List.contains_iff_mem]
  simp only [uaMatches, Bool.or_eq_true, compareEq_length, beq_iff_eq]
  constructor
  · rintro ⟨u, hu, rfl | rfl⟩
    · exact Or.inl hu
    · exact Or.inr hu
  · rintro (h | h)
    · exact ⟨_, h, Or.inl rfl⟩
    · exact ⟨_, h, Or.inr rfl⟩

/-- The first rule whose text is the path. -/
def equalRule (path : Str) (rules : List Rule) : Option Rule := rules.find? (·.str == path)

lemma rulesLoop_eq (path : Str) (rules : List Rule) :
    rulesLoop path rules = (equalRule path rules).all (·.type == .allow) := by
  induction rules with
  | nil => rfl
  | cons r rules ih =>
      rw [rulesLoop, equalRule, List.find?_cons]
      by_cases h : r.str = path
      · rw [if_pos (compareEq_length.2 h), beq_iff_eq.2 h]
        rfl
      · rw [if_neg (compareEq_length.not.2 h), beq_eq_false_iff_ne.2 h, ih]
        rfl

lemma uaLoop_eq (userAgent path : Str) (i : UasRules) (us : List Str) :
    uaLoop userAgent path i us
      = if us.any (uaMatches userAgent) then some (rulesLoop path i.rules) else none := by
  induction us with
  | nil => rfl
  | cons u us ih =>
      rw [uaLoop, List.any_cons, ih]
      cases uaMatches userAgent u <;> rfl

lemma recordsLoop_eq (userAgent path : Str) (records : List UasRules) :
    recordsLoop userAgent path records
      = (firstRecord userAgent records).all fun i => rulesLoop path i.rules := by
  induction records with
  | nil => rfl
  | cons i records ih =>
      rw [recordsLoop, uaLoop_eq, any_uaMatches, firstRecord, List.find?_cons]
      cases appliesTo userAgent i with
      | true => rfl
      | false => exact ih

/-- `path_allowed` refuses a path when the first rule of the first record whose text is the path
is not an `Allow`. -/
lemma pathAllowed_eq_false_iff (records : List UasRules) (userAgent p : Str) :
    pathAllowed records userAgent p = false ↔
      ∃ i ∈ firstRecord userAgent records, ∃ r ∈ equalRule (canonical p) i.rules,
        r.type ≠ .allow := by
  rw [pathAllowed, recordsLoop_eq]
  cases firstRecord userAgent records with
  | none => simp
  | some i =>
      simp only [Option.all_some, rulesLoop_eq, Option.mem_def, Option.some.injEq, exists_eq_left']
      cases equalRule (canonical p) i.rules <;> simp

/-! ### The documented rule -/

/-- An `Allow` or `Disallow` rule with a path that is a prefix of the given one. -/
def Rule.starts (path : Str) (r : Rule) : Bool :=
  r.type != .crawlDelay && !r.str.isEmpty && r.str.isPrefixOf path

/-- The first such rule. -/
def startRule (path : Str) (rules : List Rule) : Option Rule := rules.find? (·.starts path)

/-- The documented verdict: the path is refused by the first rule of the first record that is a
prefix of it. -/
def Refused (records : List UasRules) (userAgent p : Str) : Prop :=
  ∃ i ∈ firstRecord userAgent records, ∃ r ∈ startRule (canonical p) i.rules, r.type = .disallow

/-- The rules that lead the loop away from the documented verdict.  The first rule counts whose text
is the path, or which starts the path, and what stands behind it. -/
inductive Astray (path : Str) : List Rule → Prop
  /-- A rule that has nothing to do with the path. -/
  | skip {r : Rule} {rules : List Rule} : r.str ≠ path → r.starts path = false →
      Astray path rules → Astray path (r :: rules)
  /-- The empty path is refused by a `Disallow` or a `Crawl-delay` without a value. -/
  | empty {r : Rule} {rules : List Rule} : path = [] → r.str = [] → r.type ≠ .allow →
      Astray path (r :: rules)
  /-- A `Crawl-delay` with the path for its value refuses it, but no `Disallow` behind it does. -/
  | crawlDelay {r : Rule} {rules : List Rule} : path ≠ [] → r.str = path → r.type = .crawlDelay →
      (∀ q ∈ startRule path rules, q.type = .allow) → Astray path (r :: rules)
  /-- A `Disallow` of a part of the path is passed over, and the first rule behind it with the whole
  path is missing or an `Allow`. -/
  | disallow {r : Rule} {rules : List Rule} : r.str ≠ path → r.starts path = true →
      r.type = .disallow → (∀ q ∈ equalRule path rules, q.type = .allow) → Astray path (r :: rules)
  /-- An `Allow` of a part of the path is passed over, and the first rule behind it with the whole
  path is a `Disallow` or a `Crawl-delay`. -/
  | allow {r : Rule} {rules : List Rule} : r.str ≠ path → r.starts path = true →
      r.type = .allow → (∃ q ∈ equalRule path rules, q.type ≠ .allow) → Astray path (r :: rules)

section Astray

variable {path : Str} {r : Rule} {rules : List Rule}

lemma starts_self (hr : r.str = path) :
    r.starts path = true ↔ path ≠ [] ∧ r.type ≠ .crawlDelay := by
  subst hr
  simp [Rule.starts, and_comm]

lemma type_of_starts (h : r.starts path = true) : r.type = .allow ∨ r.type = .disallow := by
  cases htype : r.type with
  | crawlDelay => simp [Rule.starts, htype] at h
  | allow => exact Or.inl rfl
  | disallow => exact Or.inr rfl

lemma type_of_startRule {q : Rule} (h : q ∈ startRule path rules) :
    q.type = .allow ∨ q.type = .disallow :=
  type_of_starts (List.find?_some h)

lemma equalRule_cons_self (hr : r.str = path) : equalRule path (r :: rules) = some r :=
  List.find?_cons_of_pos (by simpa using hr)

lemma equalRule_cons_of_ne (hr : r.str ≠ path) :
    equalRule path (r :: rules) = equalRule path rules :=
  List.find?_cons_of_neg (by simpa using hr)

lemma startRule_cons_of_starts (hr : r.starts path = true) :
    startRule path (r :: rules) = some r :=
  List.find?_cons_of_pos hr

lemma startRule_cons_of_not_starts (hr : r.starts path = false) :
    startRule path (r :: rules) = startRule path rules :=
  List.find?_cons_of_neg (by simp [hr])

/-- For the empty path there is no rule in the documented sense. -/
lemma startRule_nil_path (rules : List Rule) : startRule [] rules = none := by
  refine List.find?_eq_none.2 fun q _ => ?_
  cases h : q.str with
  | nil => simp [Rule.starts, h]
  | cons c s => simp [Rule.starts, h]

/-- The first rule has the path for its text. -/
lemma astray_cons_self (hr : r.str = path) : Astray path (r :: rules) ↔
    (path = [] ∧ r.type ≠ .allow) ∨
      (path ≠ [] ∧ r.type = .crawlDelay ∧ ∀ q ∈ startRule path rules, q.type = .allow) := by
  constructor
  · intro h
    cases h with
    | skip hne => exact absurd hr hne
    | empty hnil _ htype => exact Or.inl ⟨hnil, htype⟩
    | crawlDelay hpath _ htype hstart => exact Or.inr ⟨hpath, htype, hstart⟩
    | disallow hne => exact absurd hr hne
    | allow hne => exact absurd hr hne
  · rintro (⟨hnil, htype⟩ | ⟨hpath, htype, hstart⟩)
    · exact .empty hnil (hr.trans hnil) htype
    · exact .crawlDelay hpath hr htype hstart

/-- The first rule starts the path. -/
lemma astray_cons_starts (hr : r.str ≠ path) (hstarts : r.starts path = true) :
    Astray path (r :: rules) ↔
      (r.type = .disallow ∧ ∀ q ∈ equalRule path rules, q.type = .allow) ∨
        (r.type = .allow ∧ ∃ q ∈ equalRule path rules, q.type ≠ .allow) := by
  constructor
  · intro h
    cases h with
    | skip _ hnot => simp [hstarts] at hnot
    | empty hnil hstr _ => exact absurd (hstr.trans hnil.symm) hr
    | crawlDelay _ hstr => exact absurd hstr hr
    | disallow _ _ htype hequal => exact Or.inl ⟨htype, hequal⟩
    | allow _ _ htype hequal => exact Or.inr ⟨htype, hequal⟩
  · rintro (⟨htype, hequal⟩ | ⟨htype, hequal⟩)
    · exact .disallow hr hstarts htype hequal
    · exact .allow hr hstarts htype hequal

/-- The first rule has nothing to do with the path. -/
lemma astray_cons_skip (hr : r.str ≠ path) (hstarts : r.starts path = false) :
    Astray path (r :: rules) ↔ Astray path rules := by
  constructor
  · intro h
    cases h with
    | skip _ _ h => exact h
    | empty hnil hstr _ => exact absurd (hstr.trans hnil.symm) hr
    | crawlDelay _ hstr => exact absurd hstr hr
    | disallow _ hdoes => simp [hstarts] at hdoes
    | allow _ hdoes => simp [hstarts] at hdoes
  · exact .skip hr hstarts

end Astray

/-- The verdict on a record is the documented one if its rules do not lead astray. -/
lemma verdict_iff_not_astray (path : Str) (rules : List Rule) :
    ((∃ r ∈ equalRule path rules, r.type ≠ .allow) ↔
        ∃ r ∈ startRule path rules, r.type = .disallow) ↔ ¬Astray path rules := by
  induction rules with
  | nil =>
      have hnil : ¬Astray path [] := by
        intro h
        cases h
      simp [equalRule, startRule, hnil]
  | cons r rules ih =>
      by_cases hr : r.str = path
      · rw [astray_cons_self hr, equalRule_cons_self hr]
        by_cases hstarts : r.starts path = true
        · obtain ⟨hpath, hdelay⟩ := (starts_self hr).1 hstarts
          rw [startRule_cons_of_starts hstarts]
          rcases type_of_starts hstarts with htype | htype <;> simp [htype, hpath]
        · rw [startRule_cons_of_not_starts (by simpa using hstarts)]
          rw [starts_self hr, not_and_or, not_not, not_not] at hstarts
          by_cases hpath : path = []
          · subst hpath
            simp [startRule_nil_path]
          · have htype := hstarts.resolve_left hpath
            have hdis : ∀ q ∈ startRule path rules, q.type = .disallow ↔ ¬q.type = .allow := by
              intro q hq
              rcases type_of_startRule hq with hallow | hdis <;> simp [*]
            simpa [htype, hpath] using exists_congr fun q => and_congr_right (hdis q)
      · rw [equalRule_cons_of_ne hr]
        by_cases hstarts : r.starts path = true
        · rw [astray_cons_starts hr hstarts, startRule_cons_of_starts hstarts]
          rcases type_of_starts hstarts with htype | htype <;> simp [htype]
        · have hnot : r.starts path = false := by simpa using hstarts
          rw [astray_cons_skip hr hnot, startRule_cons_of_not_starts hnot, ih]

/-- `path_allowed` agrees with its documentation on a path exactly when the rules of the first
record for the user agent do not lead it astray. -/
theorem pathAllowed_documented_iff (records : List UasRules) (userAgent p : Str) :
    (pathAllowed records userAgent p = false ↔ Refused records userAgent p) ↔
      ∀ i ∈ firstRecord userAgent records, ¬Astray (canonical p) i.rules := by
  rw [pathAllowed_eq_false_iff, Refused]
  cases firstRecord userAgent records with
  | none => simp
  | some i =>
      simp only [Option.mem_def, Option.some.injEq, exists_eq_left', forall_eq']
      exact verdict_iff_not_astray (canonical p) i.rules

/-- The rule `Disallow: /tmp` does not keep the crawler from `/tmp/a.html`. -/
theorem pathAllowed_below_disallowed :
    pathAllowed [{ ua := [lit "*"], rules := [{ type := .disallow, str := lit "/tmp" }] }]
        (lit "mycelium") (lit "/tmp/a.html") = true ∧
      Refused [{ ua := [lit "*"], rules := [{ type := .disallow, str := lit "/tmp" }] }]
        (lit "mycelium") (lit "/tmp/a.html") := by
  refine ⟨by decide, _, rfl, _, rfl, rfl⟩

/-! ### The default record -/

/-- The only user agent of a default record is `*`. -/
def UasRules.isDefault (i : UasRules) : Bool := !i.ua.isEmpty && i.ua.all (· == lit "*")

/-- The records other than the default ones.  Two lists agree on them when one comes from the other
by adding, removing and changing default records. -/
def specific (records : List UasRules) : List UasRules := records.filter (!·.isDefault)

lemma specific_cons_default {i : UasRules} (hi : i.isDefault = true) (records : List UasRules) :
    specific (i :: specific records) = specific records := by
  simp [specific, hi]

/-- A record for all user agents. -/
def defaultRecord (rules : List Rule) : UasRules := { ua := [lit "*"], rules := rules }

lemma isDefault_defaultRecord (rules : List Rule) : (defaultRecord rules).isDefault = true := rfl

/-- Behind a list without a record for the user agent, a default record decides. -/
lemma pathAllowed_append_default {front : List UasRules} {userAgent : Str}
    (hfront : ∀ i ∈ front, appliesTo userAgent i = false) (rules : List Rule)
    (records : List UasRules) (p : Str) :
    pathAllowed (front ++ defaultRecord rules :: records) userAgent p =
      rulesLoop (canonical p) rules := by
  have hnone : front.find? (appliesTo userAgent) = none :=
    List.find?_eq_none.2 fun i hi => by simp [hfront i hi]
  have happlies : appliesTo userAgent (defaultRecord rules) = true := by
    simp [appliesTo, defaultRecord]
  rw [pathAllowed, recordsLoop_eq, firstRecord, List.find?_append, hnone, Option.none_or,
    List.find?_cons_of_pos happlies, Option.all_some]
  rfl

/-- Changes of the default records in a part of the list leave the verdict on a path as it is
exactly when a record for the user agent, be it a default one, stands in front of that part. -/
theorem pathAllowed_default_iff (front records : List UasRules) (userAgent p : Str) :
    (∀ records', specific records' = specific records →
        pathAllowed (front ++ records') userAgent p =
          pathAllowed (front ++ records) userAgent p) ↔
      ∃ i ∈ front, appliesTo userAgent i = true := by
  constructor
  · intro h
    by_contra hnone
    have hfront : ∀ i ∈ front, appliesTo userAgent i = false := by simpa using hnone
    -- a default record with a rule for the path, or with none, at the beginning of the part
    have hverdict : ∀ rules : List Rule, rulesLoop (canonical p) rules =
        pathAllowed (front ++ records) userAgent p := by
      intro rules
      rw [← pathAllowed_append_default hfront rules (specific records) p]
      exact h _ (specific_cons_default (isDefault_defaultRecord rules) records)
    have hrefused : rulesLoop (canonical p) [⟨.disallow, canonical p⟩] = false := by
      simp [rulesLoop, compareEq]
    rw [hverdict, ← hverdict []] at hrefused
    exact absurd hrefused (by simp [rulesLoop])
  · rintro ⟨i, hi, happlies⟩ records' -
    have hfirst : ∀ rest, firstRecord userAgent (front ++ rest) = firstRecord userAgent front := by
      intro rest
      obtain ⟨j, hj⟩ := Option.isSome_iff_exists.1
        (List.find?_isSome.2 ⟨i, hi, happlies⟩)
      rw [firstRecord, firstRecord, List.find?_append, hj, Option.some_or]
    rw [pathAllowed, pathAllowed, recordsLoop_eq, recordsLoop_eq, hfirst, hfirst]

/-- A default record before the record for the user agent decides. -/
theorem not_pathAllowed_eq_of_default_first :
    ∃ records records' : List UasRules, specific records = specific records' ∧
      (∃ i ∈ records, lit "bot" ∈ i.ua) ∧
      pathAllowed records (lit "bot") (lit "/") ≠ pathAllowed records' (lit "bot") (lit "/") :=
  ⟨[{ ua := [lit "bot"] }],
    [{ ua := [lit "*"], rules := [{ str := lit "/" }] }, { ua := [lit "bot"] }],
    by decide, by decide, by decide⟩

end Robots

end Mycelium
