import Mycelium.Common.Bencode

/-!
# Reading Bencode

The reader takes more than what is ever written: white space and signs before lengths, leading
zeros, keys in any order and more than once.  Whatever it takes is a value that can be written,
with no more characters than were read.
-/

namespace Mycelium

open Lib

/-! ### What is read is well formed -/

namespace Bencode

variable {b : Bencode} {s s' : IStream} {fuel n : ℕ}

lemma readString_ok {str : Str} (h : readString s = .ok (some str, s')) :
    s'.good = true ∧ IStream.Past s s' (netstring str).length ∧ str.length < 2 ^ 31 := by
  rw [readString] at h
  rcases hint : s.readInt 32 with ⟨_ | size, s₁⟩
  · simp [hint] at h
  · rcases hget : s₁.get with ⟨c, s₂⟩
    simp only [hint, hget] at h
    split at h
    · next hc =>
        subst hc
        split at h
        · simp at h
        · next hsize =>
            split at h
            · simp at h
            · next hok =>
                obtain ⟨hstr, rfl⟩ := Prod.mk.inj (Except.ok.inj h)
                obtain rfl := Option.some.inj hstr
                obtain ⟨hint, -, hhi⟩ := IStream.readInt_ok hint
                obtain ⟨htext, hlength, hgood⟩ :=
                  IStream.getChars_ok (IStream.get_eq_some hget).2 (by simpa using hok)
                have hpast := (hint.trans (IStream.past_get hget)).trans
                  (IStream.past_append hgood htext)
                obtain ⟨n, rfl⟩ := Int.eq_ofNat_of_zero_le (not_lt.1 hsize)
                rw [Int.toNat_natCast] at hlength
                have hsigned : signedDecimal (n : ℤ) = decimal n := signedDecimal_natCast n
                simp only [Int.toNat_natCast] at hlength hpast ⊢
                refine ⟨hgood, ?_, by rw [hlength]; exact_mod_cast hhi⟩
                rw [netstring, List.length_append, List.length_cons, hlength]
                rw [hlength] at hpast
                have : (decimal n).length + (n + 1) = (signedDecimal (n : ℤ)).length + 1 + n := by
                  rw [hsigned]
                  omega
                rw [this]
                exact hpast
    · simp at h

/-- How `operator>>` ends: it fails with `TYPE_NONE`, or it has a value whose text is at most `n`
characters longer than what was read. -/
def Outcome (n : ℕ) (s : IStream) (b : Bencode) (s' : IStream) : Prop :=
  b = .none ∧ s'.failbit = true ∨
    b.WellFormed ∧ s'.good = true ∧ ∃ k, IStream.Past s s' k ∧ b.print.length ≤ n + k

lemma outcome_failed {s₁ : IStream} (h : failed s₁ = .ok (b, s')) : Outcome n s b s' := by
  obtain ⟨rfl, rfl⟩ := Prod.mk.inj (Except.ok.inj h)
  exact Or.inl ⟨rfl, rfl⟩

lemma Outcome.past {s₁ : IStream} {k m : ℕ} (h : Outcome m s₁ b s') (hpast : IStream.Past s s₁ k)
    (hle : m ≤ n + k) : Outcome n s b s' := by
  rcases h with h | ⟨hb, hgood, j, hj, hprint⟩
  · exact Or.inl h
  · exact Or.inr ⟨hb, hgood, k + j, hpast.trans hj, by omega⟩

lemma readDefault_ok {c : UInt8} (h : readDefault c s = .ok (b, s')) : Outcome 0 s b s' := by
  rw [readDefault] at h
  split at h
  · obtain ⟨⟨str, s₁⟩, hstr, h⟩ := bind_eq_ok.1 h
    cases str with
    | none => exact outcome_failed h
    | some str =>
        obtain ⟨rfl, rfl⟩ := Prod.mk.inj (Except.ok.inj h)
        obtain ⟨hgood, hpast, hlength⟩ := readString_ok hstr
        exact Or.inr ⟨.string str hlength, hgood, _, hpast, by rw [print, Nat.zero_add]⟩
  · exact outcome_failed h

lemma readValue_ok (h : readValue s = .ok (b, s')) : Outcome 1 s b s' := by
  rw [readValue] at h
  rcases hint : s.readInt 64 with ⟨_ | v, s₁⟩
  · simp only [hint] at h
    exact outcome_failed h
  · rcases hget : s₁.get with ⟨c, s₂⟩
    simp only [hint, hget] at h
    split at h
    · next hc =>
        subst hc
        obtain ⟨rfl, rfl⟩ := Prod.mk.inj (Except.ok.inj h)
        obtain ⟨hint, hlo, hhi⟩ := IStream.readInt_ok hint
        refine Or.inr ⟨.value _, (IStream.get_eq_some hget).2, _,
          hint.trans (IStream.past_get hget), ?_⟩
        rw [print, Int64.toInt_ofInt_of_le hlo hhi, List.length_append, List.length_cons]
        simp only [List.length_singleton]
        omega
    · exact outcome_failed h

lemma print_list_append {l : List Bencode} :
    (Bencode.list (l ++ [b])).print.length = (Bencode.list l).print.length + b.print.length := by
  have h : ∀ l, printList (l ++ [b]) = printList l ++ b.print := by
    intro l
    induction l with
    | nil => simp [printList]
    | cons a l ih => rw [List.cons_append, printList, ih, printList, List.append_assoc]
  rw [print, print, h]
  simp only [List.length_append, List.length_cons]
  omega

lemma length_printMap_set_le {m : List (Str × Bencode)} {k : Str} :
    (printMap (SortedMap.set Str.key k b m)).length ≤
      (printMap m).length + (netstring k).length + b.print.length := by
  induction m with
  | nil => simp [SortedMap.set, printMap]
  | cons e m ih =>
      obtain ⟨k', b'⟩ := e
      rw [SortedMap.set]
      split
      · simp only [printMap, List.length_append]
        omega
      · split
        · simp only [printMap, List.length_append]
          omega
        · simp only [printMap, List.length_append]
          omega

lemma WellFormed.insert {m : List (Str × Bencode)} {k : Str} (h : (Bencode.map m).WellFormed)
    (hk : k.length < 2 ^ 31) (hb : b.WellFormed) :
    (Bencode.map (SortedMap.set Str.key k b m)).WellFormed := by
  cases h with
  | map m hsorted hkeys hm =>
      refine .map _ hsorted.set (fun e he => ?_) (fun e he => ?_)
      · rcases SortedMap.mem_set he with rfl | he
        · exact hk
        · exact hkeys e he
      · rcases SortedMap.mem_set he with rfl | he
        · exact hb
        · exact hm e he

/-- The loop of a list that is entered with good elements. -/
def ListOutcome (fuel : ℕ) : Prop := ∀ {l s b s'}, (Bencode.list l).WellFormed →
  readList fuel l s = .ok (b, s') → Outcome ((Bencode.list l).print.length - 1) s b s'

/-- The loop of a map that is entered with good entries. -/
def MapOutcome (fuel : ℕ) : Prop := ∀ {m s b s'}, (Bencode.map m).WellFormed →
  readMap fuel m s = .ok (b, s') → Outcome ((Bencode.map m).print.length - 1) s b s'

def ReadOutcome (fuel : ℕ) : Prop := ∀ {s b s'}, readFuel fuel s = .ok (b, s') → Outcome 0 s b s'

lemma readOutcome_succ (hlist : ListOutcome fuel) (hmap : MapOutcome fuel) :
    ReadOutcome (fuel + 1) := by
  intro s b s' h
  rw [readFuel] at h
  rcases hpeek : s.peek with ⟨_ | c, s₁⟩
  · simp only [hpeek] at h
    exact outcome_failed h
  · obtain ⟨rfl, hget⟩ := IStream.get_of_peek hpeek
    have hpast := IStream.past_get hget
    simp only [hpeek] at h
    split_ifs at h
    · exact (readValue_ok h).past hpast le_rfl
    · exact (hlist (.list [] (by simp)) h).past hpast le_rfl
    · exact (hmap (.map [] List.Pairwise.nil (by simp) (by simp)) h).past hpast le_rfl
    · rcases hpeek' : s₁.get.2.peek with ⟨_ | c', s₂⟩
      · simp only [hpeek'] at h
        exact outcome_failed h
      · obtain ⟨rfl, -⟩ := IStream.get_of_peek hpeek'
        simp only [hpeek'] at h
        exact (readDefault_ok h).past hpast (Nat.zero_le _)
    · exact readDefault_ok h

lemma readList_of_not_good {l : List Bencode} {s₀ : IStream} (hgood : s.good = false)
    (h : readList fuel l s = .ok (b, s')) : Outcome n s₀ b s' := by
  cases fuel with
  | zero => simp [readList] at h
  | succ fuel =>
      rw [readList, if_neg (by simp [hgood])] at h
      exact outcome_failed h

lemma readMap_of_not_good {m : List (Str × Bencode)} {s₀ : IStream} (hgood : s.good = false)
    (h : readMap fuel m s = .ok (b, s')) : Outcome n s₀ b s' := by
  cases fuel with
  | zero => simp [readMap] at h
  | succ fuel =>
      rw [readMap, if_neg (by simp [hgood])] at h
      exact outcome_failed h

lemma listOutcome_succ (hread : ReadOutcome fuel) (hlist : ListOutcome fuel) :
    ListOutcome (fuel + 1) := by
  intro l s b s' hl h
  rw [readList] at h
  split at h
  · next hgood =>
      rcases hpeek : s.peek with ⟨c, s₁⟩
      have hpast := IStream.past_peek hgood
      simp only [hpeek] at h hpast
      split at h
      · next hc =>
          subst hc
          obtain ⟨rfl, hget⟩ := IStream.get_of_peek hpeek
          obtain ⟨rfl, rfl⟩ := Prod.mk.inj (Except.ok.inj h)
          refine Or.inr ⟨hl, (IStream.get_eq_some hget).2, 1, IStream.past_get hget, ?_⟩
          omega
      · obtain ⟨⟨a, s₂⟩, ha, h⟩ := bind_eq_ok.1 h
        rcases hread ha with ⟨-, hfail⟩ | ⟨hwf, -, k, hk, hprint⟩
        · exact readList_of_not_good (IStream.good_of_failbit hfail) h
        · cases hl with
          | list l hl =>
              have hl' : (Bencode.list (l ++ [a])).WellFormed := by
                refine .list _ fun x hx => ?_
                rcases List.mem_append.1 hx with hx | hx
                · exact hl x hx
                · rwa [List.mem_singleton.1 hx]
              refine (hlist hl' h).past (hpast.trans hk) ?_
              rw [print_list_append]
              omega
  · exact outcome_failed h

lemma mapOutcome_succ (hread : ReadOutcome fuel) (hmap : MapOutcome fuel) :
    MapOutcome (fuel + 1) := by
  intro m s b s' hm h
  rw [readMap] at h
  split at h
  · next hgood =>
      rcases hpeek : s.peek with ⟨c, s₁⟩
      have hpast := IStream.past_peek hgood
      simp only [hpeek] at h hpast
      split at h
      · next hc =>
          subst hc
          obtain ⟨rfl, hget⟩ := IStream.get_of_peek hpeek
          obtain ⟨rfl, rfl⟩ := Prod.mk.inj (Except.ok.inj h)
          refine Or.inr ⟨hm, (IStream.get_eq_some hget).2, 1, IStream.past_get hget, ?_⟩
          omega
      · obtain ⟨⟨str, s₂⟩, hstr, h⟩ := bind_eq_ok.1 h
        cases str with
        | none => exact outcome_failed h
        | some str =>
            obtain ⟨⟨a, s₃⟩, ha, h⟩ := bind_eq_ok.1 h
            obtain ⟨-, hkey, hlength⟩ := readString_ok hstr
            rcases hread ha with ⟨-, hfail⟩ | ⟨hwf, -, k, hk, hprint⟩
            · exact readMap_of_not_good (IStream.good_of_failbit hfail) h
            · refine (hmap (hm.insert hlength hwf) h).past ((hpast.trans hkey).trans hk) ?_
              have := length_printMap_set_le (b := a) (m := m) (k := str)
              simp only [print, List.length_append, List.length_cons]
              omega
  · exact outcome_failed h

lemma outcome (fuel : ℕ) : ReadOutcome fuel ∧ ListOutcome fuel ∧ MapOutcome fuel := by
  induction fuel with
  | zero =>
      refine ⟨fun h => ?_, fun _ h => ?_, fun _ h => ?_⟩
      · simp [readFuel] at h
      · simp [readList] at h
      · simp [readMap] at h
  | succ fuel ih =>
      obtain ⟨hread, hlist, hmap⟩ := ih
      exact ⟨readOutcome_succ hlist hmap, listOutcome_succ hread hlist, mapOutcome_succ hread hmap⟩

lemma Outcome.length_lt (h : Outcome 0 s b s') (hgood : s'.good = true) :
    s'.rest.length < s.rest.length := by
  rcases h with ⟨-, hfail⟩ | ⟨hwf, -, k, hk, hprint⟩
  · rw [IStream.good_of_failbit hfail] at hgood
    exact absurd hgood (by decide)
  · obtain ⟨c, u, htext, -⟩ := exists_print hwf
    rw [htext, List.length_cons] at hprint
    have := hk.length
    omega

/-! ### The reader returns -/

lemma bind_ne_error {ε α β : Type} {x : Except ε α} {f : α → Except ε β} {e : ε}
    (hx : x ≠ .error e) (hf : ∀ a, x = .ok a → f a ≠ .error e) : (x >>= f) ≠ .error e := by
  cases x with
  | error e' => exact fun h => hx (congrArg _ (Except.error.inj h))
  | ok a => exact hf a rfl

lemma failed_ne_error {e : Stop} : failed s ≠ .error e := by
  simp [failed]

lemma readString_ne_outOfFuel : readString s ≠ .error .outOfFuel := by
  rw [readString]
  repeat' split
  all_goals simp

lemma readDefault_ne_outOfFuel {c : UInt8} : readDefault c s ≠ .error .outOfFuel := by
  rw [readDefault]
  split
  · refine bind_ne_error readString_ne_outOfFuel fun r _ => ?_
    obtain ⟨str, s₁⟩ := r
    cases str with
    | none => exact failed_ne_error
    | some str => simp
  · exact failed_ne_error

lemma readValue_ne_outOfFuel : readValue s ≠ .error .outOfFuel := by
  rw [readValue]
  repeat' split
  all_goals first | exact failed_ne_error | simp

/-- A loop makes one call for its end and, while the stream is good, two for every character. -/
def LoopFuel (fuel : ℕ) (s : IStream) : Prop :=
  1 ≤ fuel ∧ (s.good = true → 2 * s.rest.length + 2 ≤ fuel)

/-- The fuel of a loop is enough for an element, and what is left for the rest of the loop. -/
lemma LoopFuel.element {s₁ s₂ : IStream} {k : ℕ} (h : LoopFuel (fuel + 1) s) (hgood : s.good = true)
    (hpast : IStream.Past s s₁ k) (hread : readFuel fuel s₁ = .ok (b, s₂)) : LoopFuel fuel s₂ := by
  have hs := h.2 hgood
  refine ⟨by omega, fun hgood₂ => ?_⟩
  have hlt := ((outcome fuel).1 hread).length_lt hgood₂
  have hle := hpast.length
  omega

def ReadReturns (fuel : ℕ) : Prop :=
  ∀ {s : IStream}, 2 * s.rest.length + 1 ≤ fuel → readFuel fuel s ≠ .error .outOfFuel

def ListReturns (fuel : ℕ) : Prop :=
  ∀ {l s}, LoopFuel fuel s → readList fuel l s ≠ .error .outOfFuel

def MapReturns (fuel : ℕ) : Prop :=
  ∀ {m s}, LoopFuel fuel s → readMap fuel m s ≠ .error .outOfFuel

lemma readReturns_succ (hlist : ListReturns fuel) (hmap : MapReturns fuel) :
    ReadReturns (fuel + 1) := by
  intro s hs
  rw [readFuel]
  rcases hpeek : s.peek with ⟨_ | c, s₁⟩
  · exact failed_ne_error
  · obtain ⟨rfl, hget⟩ := IStream.get_of_peek hpeek
    have hlen := (IStream.past_get hget).length
    have hloop : LoopFuel fuel s₁.get.2 := ⟨by omega, fun _ => by omega⟩
    simp only
    split_ifs
    · exact readValue_ne_outOfFuel
    · exact hlist hloop
    · exact hmap hloop
    · rcases s₁.get.2.peek with ⟨_ | c', s₂⟩
      · exact failed_ne_error
      · exact readDefault_ne_outOfFuel
    · exact readDefault_ne_outOfFuel

lemma listReturns_succ (hread : ReadReturns fuel) (hlist : ListReturns fuel) :
    ListReturns (fuel + 1) := by
  intro l s hs
  rw [readList]
  split
  · next hgood =>
      have hpast := IStream.past_peek hgood
      have hfuel := hs.2 hgood
      rcases hpeek : s.peek with ⟨c, s₁⟩
      rw [hpeek] at hpast
      have hlen := hpast.length
      simp only at hlen ⊢
      split
      · simp
      · exact bind_ne_error (hread (by omega)) fun _ ha => hlist (hs.element hgood hpast ha)
  · exact failed_ne_error

lemma mapReturns_succ (hread : ReadReturns fuel) (hmap : MapReturns fuel) :
    MapReturns (fuel + 1) := by
  intro m s hs
  rw [readMap]
  split
  · next hgood =>
      have hpast := IStream.past_peek hgood
      have hfuel := hs.2 hgood
      rcases hpeek : s.peek with ⟨c, s₁⟩
      rw [hpeek] at hpast
      have hlen := hpast.length
      simp only at hlen ⊢
      split
      · simp
      · refine bind_ne_error readString_ne_outOfFuel fun r hstr => ?_
        obtain ⟨str, s₂⟩ := r
        cases str with
        | none => exact failed_ne_error
        | some str =>
            have hkey := (readString_ok hstr).2.1
            have hlen' := hkey.length
            exact bind_ne_error (hread (s := s₂) (by omega))
              fun _ ha => hmap (hs.element hgood (hpast.trans hkey) ha)
  · exact failed_ne_error

/-- With the fuel that a text needs, the three functions return. -/
lemma returns (fuel : ℕ) : ReadReturns fuel ∧ ListReturns fuel ∧ MapReturns fuel := by
  induction fuel with
  | zero =>
      refine ⟨fun hs => ?_, fun hs => ?_, fun hs => ?_⟩
      · omega
      · exact absurd hs.1 (by decide)
      · exact absurd hs.1 (by decide)
  | succ fuel ih =>
      obtain ⟨hread, hlist, hmap⟩ := ih
      exact ⟨readReturns_succ hlist hmap, listReturns_succ hread hlist, mapReturns_succ hread hmap⟩

/-! ### Round trips -/

/-- The fuel of `read` is enough for a value at the start of the text. -/
lemma fuel_print_le (b : Bencode) (t : Str) :
    2 * b.print.length + 1 ≤ 2 * (b.print ++ t).length + 1 := by
  rw [List.length_append]
  omega

/-- A value that is written is read back, and what stands behind it is left in the stream. -/
theorem read_print (h : b.WellFormed) (t : Str) :
    read { rest := b.print ++ t } = .ok (b, { rest := t }) :=
  readFuel_print h _ t (fuel_print_le b t)

/-- A map with a list and an empty map. -/
def sample : Bencode :=
  .map [([0x61], .list [.value (-42), .string [0x78, 0x79]]), ([0x62], .map [])]

lemma sample_wellFormed : sample.WellFormed := by
  refine .map _ (List.pairwise_pair.2 (by decide)) (by simp) ?_
  simp only [List.forall_mem_cons, List.not_mem_nil, false_imp_iff, implies_true, and_true]
  refine ⟨.list _ ?_, .map _ List.Pairwise.nil (by simp) (by simp)⟩
  simp only [List.forall_mem_cons, List.not_mem_nil, false_imp_iff, implies_true, and_true]
  exact ⟨.value _, .string _ (by decide)⟩

theorem read_print_sample :
    sample.WellFormed ∧ sample.print = lit "d1:ali-42e2:xye1:bdee" ∧
      read { rest := sample.print ++ lit "u" } = .ok (sample, { rest := lit "u" }) :=
  ⟨sample_wellFormed, by decide, read_print sample_wellFormed (lit "u")⟩

/-- Every text is read to an end, or up to a negative length, at which `resize` throws.  What is
accepted is a well-formed value, which is written with no more characters than were read and is then
read again; otherwise the stream has failed and the value is `TYPE_NONE`. -/
theorem read_wellFormed (s : IStream) :
    read s = .error .lengthError ∨ ∃ b s', read s = .ok (b, s') ∧
      ((b = .none ∧ s'.failbit = true) ∨
        (b.WellFormed ∧ s'.good = true ∧ ∃ u, s.rest = u ++ s'.rest ∧ b.print.length ≤ u.length ∧
          read { rest := b.print ++ s'.rest } = .ok (b, s'))) := by
  have hends : read s ≠ .error .outOfFuel := (returns _).1 le_rfl
  cases h : read s with
  | error e =>
      cases e with
      | lengthError => exact Or.inl rfl
      | outOfFuel => exact absurd h hends
  | ok r =>
      obtain ⟨b, s'⟩ := r
      refine Or.inr ⟨b, s', rfl, ?_⟩
      rcases (outcome _).1 h with hfail | ⟨hwf, hgood, k, hk, hprint⟩
      · exact Or.inl hfail
      · obtain ⟨u, hu⟩ := hk.suffix
        refine Or.inr ⟨hwf, hgood, u, hu.symm, ?_, ?_⟩
        · have hlength := hk.length
          rw [← hu, List.length_append] at hlength
          omega
        · have hread := readFuel_print hwf _ s'.rest (fuel_print_le b s'.rest)
          rwa [← IStream.eq_mk_of_good hgood] at hread

-- the negative length of a key
example : read { rest := lit "d-1:" } = .error .lengthError := rfl

/-! ### Maps -/

/-- The text of a `bencode_error`. -/
def wrongType (call : Str) : Exn := .runtimeError (call ++ lit " called on wrong type")

/-- `Bencode::operator[]`. -/
def index (k : Str) : Bencode → Except Exn Bencode
  | .map m =>
      match SortedMap.find Str.key k m with
      | some b => .ok b
      | Option.none =>
          .error (.runtimeError (lit "Bencode operator [" ++ k ++ lit "] could not find element"))
  | _ => .error (wrongType (lit "Bencode operator [" ++ k ++ lit "]"))

/-- `Bencode::has_key`. -/
def hasKey (s : Str) : Bencode → Except Exn Bool
  | .map m => .ok (SortedMap.find Str.key s m).isSome
  | _ => .error (wrongType (lit "Bencode::has_key(" ++ s ++ lit ")"))

/-- `Bencode::insert_key`; the map afterwards. -/
def insertKey (s : Str) (b : Bencode) : Bencode → Except Exn Bencode
  | .map m => .ok (.map (SortedMap.set Str.key s b m))
  | _ => .error (wrongType (lit "Bencode::insert_key(" ++ s ++ lit ", ...)"))

/-- `Bencode::erase_key`; the map afterwards. -/
def eraseKey (s : Str) : Bencode → Except Exn Bencode
  | .map m => .ok (.map (SortedMap.erase Str.key s m))
  | _ => .error (wrongType (lit "Bencode::erase_key(" ++ s ++ lit ")"))

/-- The calls that change a map. -/
inductive Edit where
  | insert (k : Str) (b : Bencode)
  | erase (k : Str)

namespace Edit

def call : Edit → Bencode → Except Exn Bencode
  | insert k b => insertKey k b
  | erase k => eraseKey k

/-- The value of an insertion can be written. -/
def Ok : Edit → Prop
  | insert k b => k.length < 2 ^ 31 ∧ b.WellFormed
  | erase _ => True

/-- What a call does to the function of a map. -/
def onto (f : Str → Option Bencode) : Edit → Str → Option Bencode
  | insert k b => Function.update f k (some b)
  | erase k => Function.update f k Option.none

end Edit

/-- The map as a function. -/
def content (m : List (Str × Bencode)) (k : Str) : Option Bencode := SortedMap.find Str.key k m

variable {m : List (Str × Bencode)} {e : Edit} {k : Str}

lemma content_set :
    content (SortedMap.set Str.key k b m) = Function.update (content m) k (some b) := by
  funext k'
  rw [content, SortedMap.find_set, Function.update_apply]
  simp only [Str.key_injective.eq_iff, content]

lemma content_erase :
    content (SortedMap.erase Str.key k m) = Function.update (content m) k Option.none := by
  funext k'
  rw [content, SortedMap.find_erase, Function.update_apply]
  simp only [Str.key_injective.eq_iff, content]

lemma WellFormed.erase (h : (Bencode.map m).WellFormed) :
    (Bencode.map (SortedMap.erase Str.key k m)).WellFormed := by
  cases h with
  | map m hsorted hkeys hm =>
      exact .map _ hsorted.erase (fun e he => hkeys e (List.mem_of_mem_filter he))
        fun e he => hm e (List.mem_of_mem_filter he)

/-- A call on a map is the update of its function, and the map stays fit to be written. -/
lemma call_map (h : (Bencode.map m).WellFormed) (he : e.Ok) :
    ∃ m', e.call (.map m) = .ok (.map m') ∧ (Bencode.map m').WellFormed ∧
      content m' = e.onto (content m) := by
  cases e with
  | insert k b => exact ⟨_, rfl, h.insert he.1 he.2, content_set⟩
  | erase k => exact ⟨_, rfl, h.erase, content_erase⟩

/-- A map that was changed by any calls that insert well-formed values, written and read again
answers like the function with the same updates. -/
theorem edits_read (es : List Edit) (t : Str) (h : (Bencode.map m).WellFormed)
    (hes : ∀ e ∈ es, e.Ok) :
    ∃ b, es.foldlM (fun b e => e.call b) (Bencode.map m) = .ok b ∧
      read { rest := b.print ++ t } = .ok (b, { rest := t }) ∧
      ∀ k, hasKey k b = .ok (es.foldl Edit.onto (content m) k).isSome ∧
        ∀ v, index k b = .ok v ↔ es.foldl Edit.onto (content m) k = some v := by
  induction es generalizing m with
  | nil =>
      refine ⟨.map m, rfl, readFuel_print h _ t (fuel_print_le _ t), fun k => ⟨rfl, fun v => ?_⟩⟩
      rw [index, List.foldl_nil, content]
      cases SortedMap.find Str.key k m <;> simp
  | cons e es ih =>
      obtain ⟨he, hes⟩ := List.forall_mem_cons.1 hes
      obtain ⟨m', hcall, hm', hcontent⟩ := call_map h he
      obtain ⟨b, hb, hread, hkeys⟩ := ih hm' hes
      refine ⟨b, ?_, hread, ?_⟩
      · rw [List.foldlM_cons, hcall, ok_bind, hb]
      · rwa [List.foldl_cons, ← hcontent]

theorem edits_read_sample :
    ∃ b, [Edit.insert [0x63] sample, .erase [0x61]].foldlM (fun b e => e.call b) sample = .ok b ∧
      read { rest := b.print ++ lit "i1e" } = .ok (b, { rest := lit "i1e" }) ∧
      hasKey [0x61] b = .ok false ∧ index [0x63] b = .ok sample := by
  have hes : ∀ e ∈ [Edit.insert [0x63] sample, .erase [0x61]], e.Ok := by
    simp only [List.forall_mem_cons, List.not_mem_nil, false_imp_iff, implies_true, and_true]
    exact ⟨⟨by decide, sample_wellFormed⟩, trivial⟩
  obtain ⟨b, hb, hread, hkeys⟩ := edits_read _ (lit "i1e") sample_wellFormed hes
  exact ⟨b, hb, hread, (hkeys [0x61]).1, ((hkeys [0x63]).2 sample).2 rfl⟩

end Bencode

end Mycelium
