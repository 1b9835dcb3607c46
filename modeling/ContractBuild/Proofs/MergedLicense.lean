import ContractBuild.Source.Flattened
import Mathlib.Data.List.Forall2

/-!
# What a merged licence means

A licence expression is made of identifiers, `AND`, `OR` and parentheses, and `AND` binds tighter
than `OR`. The types say so: an `Expression` is a choice of `Term`s, a term a conjunction of
`Factor`s, and a factor an identifier or an expression in parentheses.

- **Reading** (`Reads`, `Expression.tokens_inj`): a text reads as an expression if it has its
  tokens, and it reads as one expression at most.
- **Gluing** (`Expression.tokens_glue`): two texts with `AND` between them read as one expression,
  in which only the last term of the first and the first term of the second are conjoined.
- **Meaning** (`Expression.value_glue`): what is glued holds if both expressions hold, but it can
  hold without them.

Main statement: `merged_license`. Declared expressions that offer a choice are torn apart
(`merged_license_torn`).
-/

namespace ContractBuild.License

open Text

/-! ## Expressions -/

/-- The parts of the text of a licence expression. -/
inductive Token where
  | name (id : String)
  | conj
  | disj
  | opening
  | closing
  deriving Repr, DecidableEq

mutual

/-- A licence expression: terms of which one has to hold. -/
inductive Expression where
  | term (t : Term)
  | either (t : Term) (rest : Expression)

/-- Factors that all have to hold. -/
inductive Term where
  | factor (f : Factor)
  | both (f : Factor) (rest : Term)

/-- An identifier, or an expression in parentheses. -/
inductive Factor where
  | name (id : String)
  | group (e : Expression)

end

mutual

/-- The tokens that an expression is written with. -/
def Expression.tokens : Expression → List Token
  | .term t => t.tokens
  | .either t rest => t.tokens ++ .disj :: rest.tokens

/-- The tokens that a term is written with. -/
def Term.tokens : Term → List Token
  | .factor f => f.tokens
  | .both f rest => f.tokens ++ .conj :: rest.tokens

/-- The tokens that a factor is written with. -/
def Factor.tokens : Factor → List Token
  | .name id => [.name id]
  | .group e => .opening :: (e.tokens ++ [.closing])

end

mutual

/-- Whether an expression holds, if some identifiers do. -/
def Expression.value (holds : String → Bool) : Expression → Bool
  | .term t => t.value holds
  | .either t rest => t.value holds || rest.value holds

/-- Whether a term holds. -/
def Term.value (holds : String → Bool) : Term → Bool
  | .factor f => f.value holds
  | .both f rest => f.value holds && rest.value holds

/-- Whether a factor holds. -/
def Factor.value (holds : String → Bool) : Factor → Bool
  | .name id => holds id
  | .group e => e.value holds

end

mutual

/-- The identifiers of an expression. -/
def Expression.names : Expression → List String
  | .term t => t.names
  | .either t rest => t.names ++ rest.names

/-- The identifiers of a term. -/
def Term.names : Term → List String
  | .factor f => f.names
  | .both f rest => f.names ++ rest.names

/-- The identifiers of a factor. -/
def Factor.names : Factor → List String
  | .name id => [id]
  | .group e => e.names

end

/-- Whether an expression offers no choice outside parentheses. -/
def Expression.isTerm : Expression → Bool
  | .term _ => true
  | .either _ _ => false

/-! ## Reading -/

/-- Parentheses stand for themselves, also where no blanks part them from words. -/
def spaced (c : Char) : List Char := if c == '(' || c == ')' then [' ', c, ' '] else [c]

/-- What a word of an expression says. -/
def token (word : List Char) : Token :=
  if word == "AND".toList then .conj
  else if word == "OR".toList then .disj
  else if word == ['('] then .opening
  else if word == [')'] then .closing
  else .name (String.ofList word)

/-- The tokens of a text. -/
def tokens (text : String) : List Token := (words (text.toList.flatMap spaced)).map token

/-- A text reads as an expression. -/
def Reads (text : String) (e : Expression) : Prop := tokens text = e.tokens

instance (text : String) (e : Expression) : Decidable (Reads text e) :=
  inferInstanceAs (Decidable (tokens text = e.tokens))

mutual

/-- What follows an expression and is neither `AND` nor `OR` tells where the expression ends. -/
theorem Expression.tokens_append_inj : ∀ (e e' : Expression) {rest rest' : List Token},
    rest.head? ≠ some .conj → rest.head? ≠ some .disj → rest'.head? ≠ some .conj →
    rest'.head? ≠ some .disj → e.tokens ++ rest = e'.tokens ++ rest' → e = e' ∧ rest = rest'
  | .term t, .term t', _, _, hconj, _, hconj', _, h => by
    obtain ⟨rfl, hrest⟩ := Term.tokens_append_inj t t' hconj hconj' h
    exact ⟨rfl, hrest⟩
  | .term t, .either t' e', _, _, hconj, hdisj, _, _, h => by
    rw [Expression.tokens, Expression.tokens, List.append_assoc] at h
    obtain ⟨-, rfl⟩ := Term.tokens_append_inj t t' hconj (by simp) h
    exact absurd rfl hdisj
  | .either t e, .term t', _, _, _, _, hconj', hdisj', h => by
    rw [Expression.tokens, Expression.tokens, List.append_assoc] at h
    obtain ⟨-, rfl⟩ := Term.tokens_append_inj t t' (by simp) hconj' h
    exact absurd rfl hdisj'
  | .either t e, .either t' e', _, _, hconj, hdisj, hconj', hdisj', h => by
    rw [Expression.tokens, Expression.tokens, List.append_assoc, List.append_assoc] at h
    obtain ⟨rfl, hrest⟩ := Term.tokens_append_inj t t' (by simp) (by simp) h
    obtain ⟨rfl, hmore⟩ := Expression.tokens_append_inj e e' hconj hdisj hconj' hdisj'
      (List.cons.inj hrest).2
    exact ⟨rfl, hmore⟩

/-- What follows a term and is not `AND` tells where the term ends. -/
theorem Term.tokens_append_inj : ∀ (t t' : Term) {rest rest' : List Token},
    rest.head? ≠ some .conj → rest'.head? ≠ some .conj →
    t.tokens ++ rest = t'.tokens ++ rest' → t = t' ∧ rest = rest'
  | .factor f, .factor f', _, _, _, _, h => by
    obtain ⟨rfl, hrest⟩ := Factor.tokens_append_inj f f' h
    exact ⟨rfl, hrest⟩
  | .factor f, .both f' t', _, _, hconj, _, h => by
    rw [Term.tokens, Term.tokens, List.append_assoc] at h
    obtain ⟨-, rfl⟩ := Factor.tokens_append_inj f f' h
    exact absurd rfl hconj
  | .both f t, .factor f', _, _, _, hconj', h => by
    rw [Term.tokens, Term.tokens, List.append_assoc] at h
    obtain ⟨-, rfl⟩ := Factor.tokens_append_inj f f' h
    exact absurd rfl hconj'
  | .both f t, .both f' t', _, _, hconj, hconj', h => by
    rw [Term.tokens, Term.tokens, List.append_assoc, List.append_assoc] at h
    obtain ⟨rfl, hrest⟩ := Factor.tokens_append_inj f f' h
    obtain ⟨rfl, hmore⟩ := Term.tokens_append_inj t t' hconj hconj' (List.cons.inj hrest).2
    exact ⟨rfl, hmore⟩

/-- A factor tells by itself where it ends. -/
theorem Factor.tokens_append_inj : ∀ (f f' : Factor) {rest rest' : List Token},
    f.tokens ++ rest = f'.tokens ++ rest' → f = f' ∧ rest = rest'
  | .name id, .name id', _, _, h => by
    obtain ⟨hid, hrest⟩ := List.cons.inj h
    exact ⟨congrArg Factor.name (Token.name.inj hid), hrest⟩
  | .name _, .group _, _, _, h => by cases h
  | .group _, .name _, _, _, h => by cases h
  | .group e, .group e', rest, rest', h => by
    rw [Factor.tokens, Factor.tokens, List.cons_append, List.cons_append, List.cons_inj_right,
      List.append_assoc, List.append_assoc] at h
    obtain ⟨rfl, hrest⟩ :=
      Expression.tokens_append_inj e e' (by simp) (by simp) (by simp) (by simp) h
    exact ⟨rfl, (List.cons.inj hrest).2⟩

end

/-- **An expression is read in one way.** -/
theorem Expression.tokens_inj {e e' : Expression} (h : e.tokens = e'.tokens) : e = e' := by
  have hend : e.tokens ++ [] = e'.tokens ++ [] := by rw [h]
  exact (Expression.tokens_append_inj e e' (by simp) (by simp) (by simp) (by simp) hend).1

/-- A text that is put behind another one and `AND`. -/
theorem tokens_append_and (s t : String) :
    tokens (s ++ " AND " ++ t) = tokens s ++ .conj :: tokens t := by
  have hlist : (s ++ " AND " ++ t).toList.flatMap spaced =
      s.toList.flatMap spaced ++ ' ' :: ("AND".toList ++ ' ' :: t.toList.flatMap spaced) := by
    simp [spaced]
  have hword : (words "AND".toList).map token = [.conj] := by decide
  rw [tokens, hlist, words_append_space, words_append_space, List.map_append, List.map_append,
    hword]
  rfl

/-! ## Gluing -/

/-- The factors of two terms. -/
def Term.append : Term → Term → Term
  | .factor f, u => .both f u
  | .both f t, u => .both f (t.append u)

/-- A term with `AND` and an expression behind it: the first term of the expression is taken in. -/
def Term.glue (t : Term) : Expression → Expression
  | .term u => .term (t.append u)
  | .either u rest => .either (t.append u) rest

/-- Two expressions with `AND` between them, and no parentheses around either. -/
def Expression.glue : Expression → Expression → Expression
  | .term t, e => t.glue e
  | .either t rest, e => .either t (rest.glue e)

/-- Expressions with `AND` between each two of them: their terms in order, where the last term of
each is conjoined with the first term of the next. -/
def Expression.merged : Expression → List Expression → Expression
  | e, [] => e
  | e, e' :: es => e.glue (merged e' es)

theorem Term.tokens_append : ∀ t u : Term, (t.append u).tokens = t.tokens ++ .conj :: u.tokens
  | .factor f, u => rfl
  | .both f t, u => by
    rw [Term.append, Term.tokens, Term.tokens_append t u, Term.tokens, List.append_assoc]
    rfl

theorem Term.tokens_glue (t : Term) (e : Expression) :
    (t.glue e).tokens = t.tokens ++ .conj :: e.tokens := by
  cases e with
  | term u => exact Term.tokens_append t u
  | either u rest =>
    rw [Term.glue, Expression.tokens, Term.tokens_append, Expression.tokens, List.append_assoc]
    rfl

/-- **Two texts with `AND` between them read as what is glued.** -/
theorem Expression.tokens_glue : ∀ e e' : Expression,
    (e.glue e').tokens = e.tokens ++ .conj :: e'.tokens
  | .term t, e' => Term.tokens_glue t e'
  | .either t rest, e' => by
    rw [Expression.glue, Expression.tokens, Expression.tokens_glue rest e', Expression.tokens,
      List.append_assoc]
    rfl

/-- **The merged text of some expressions reads as what is merged of them.** -/
theorem reads_mergeLicenses {text : String} {texts : List String} {e : Expression}
    {es : List Expression} (h : Reads text e) (hs : List.Forall₂ Reads texts es) :
    Reads (mergeLicenses (text :: texts)) (e.merged es) := by
  induction hs generalizing text e with
  | nil => simpa [mergeLicenses, String.intercalate_singleton, Expression.merged] using h
  | @cons text' e' texts es h' _ ih =>
    have hmerge : mergeLicenses (text :: text' :: texts) =
        text ++ " AND " ++ mergeLicenses (text' :: texts) := by
      simp [mergeLicenses, String.intercalate_cons_cons]
    rw [Reads, hmerge, tokens_append_and, h, ih h', Expression.merged, Expression.tokens_glue]

/-! ## Meaning -/

theorem Term.value_append (holds : String → Bool) : ∀ t u : Term,
    (t.append u).value holds = (t.value holds && u.value holds)
  | .factor f, u => rfl
  | .both f t, u => by
    rw [Term.append, Term.value, Term.value_append holds t u, Term.value, Bool.and_assoc]

theorem Term.value_glue {holds : String → Bool} {t : Term} {e : Expression}
    (ht : t.value holds = true) (he : e.value holds = true) : (t.glue e).value holds = true := by
  cases e with
  | term u =>
    rw [Term.glue, Expression.value, Term.value_append, ht]
    exact he
  | either u rest =>
    rw [Term.glue, Expression.value, Term.value_append, ht]
    exact he

/-- **What is glued holds if both expressions do.** -/
theorem Expression.value_glue {holds : String → Bool} : ∀ {e e' : Expression},
    e.value holds = true → e'.value holds = true → (e.glue e').value holds = true
  | .term t, e', h, h' => Term.value_glue h h'
  | .either t rest, e', h, h' => by
    rw [Expression.glue, Expression.value, Bool.or_eq_true]
    rcases Bool.or_eq_true_iff.mp h with ht | hrest
    · exact .inl ht
    · exact .inr (Expression.value_glue hrest h')

theorem Expression.value_merged {holds : String → Bool} {e : Expression} {es : List Expression}
    (h : ∀ x ∈ e :: es, x.value holds = true) : (e.merged es).value holds = true := by
  induction es generalizing e with
  | nil => exact h e (by simp)
  | cons e' es ih =>
    obtain ⟨he, hes⟩ := List.forall_mem_cons.mp h
    exact Expression.value_glue he (ih hes)

/-- Terms that are glued mean their conjunction. -/
theorem Expression.glue_of_isTerm {e e' : Expression} (h : e.isTerm = true)
    (h' : e'.isTerm = true) : (e.glue e').isTerm = true ∧
      ∀ holds, (e.glue e').value holds = (e.value holds && e'.value holds) := by
  cases e with
  | either t rest => cases h
  | term t =>
    cases e' with
    | either u rest => cases h'
    | term u => exact ⟨rfl, fun holds => Term.value_append holds t u⟩

/-- **Expressions that offer no choice are merged to their conjunction.** -/
theorem Expression.merged_of_isTerm {e : Expression} {es : List Expression}
    (h : ∀ x ∈ e :: es, x.isTerm = true) : (e.merged es).isTerm = true ∧
      ∀ holds, (e.merged es).value holds = (e :: es).all (·.value holds) := by
  induction es generalizing e with
  | nil => exact ⟨h e (by simp), fun holds => by simp [Expression.merged]⟩
  | cons e' es ih =>
    obtain ⟨he, hes⟩ := List.forall_mem_cons.mp h
    obtain ⟨hterm, hvalue⟩ := ih hes
    obtain ⟨hglued, hboth⟩ := Expression.glue_of_isTerm he hterm
    refine ⟨hglued, fun holds => ?_⟩
    rw [Expression.merged, hboth, hvalue]
    rfl

/-! ## Choices that are torn apart -/

mutual

/-- More identifiers make no expression false. Only its own identifiers count. -/
theorem Expression.value_mono {holds holds' : String → Bool} : ∀ e : Expression,
    (∀ s ∈ e.names, holds s = true → holds' s = true) →
    e.value holds = true → e.value holds' = true
  | .term t, h, he => Term.value_mono t h he
  | .either t rest, h, he => by
    obtain ⟨ht, hrest⟩ := List.forall_mem_append.mp h
    exact Bool.or_eq_true_iff.mpr ((Bool.or_eq_true_iff.mp he).imp (Term.value_mono t ht)
      (Expression.value_mono rest hrest))

theorem Term.value_mono {holds holds' : String → Bool} : ∀ t : Term,
    (∀ s ∈ t.names, holds s = true → holds' s = true) →
    t.value holds = true → t.value holds' = true
  | .factor f, h, ht => Factor.value_mono f h ht
  | .both f rest, h, ht => by
    obtain ⟨hf, hrest⟩ := List.forall_mem_append.mp h
    exact Bool.and_eq_true_iff.mpr ((Bool.and_eq_true_iff.mp ht).imp (Factor.value_mono f hf)
      (Term.value_mono rest hrest))

theorem Factor.value_mono {holds holds' : String → Bool} : ∀ f : Factor,
    (∀ s ∈ f.names, holds s = true → holds' s = true) →
    f.value holds = true → f.value holds' = true
  | .name id, h, hf => h id List.mem_cons_self hf
  | .group e, h, hf => Expression.value_mono e h hf

end

mutual

theorem Expression.value_const (b : Bool) : ∀ e : Expression, (e.value fun _ => b) = b
  | .term t => Term.value_const b t
  | .either t rest => by
    rw [Expression.value, Term.value_const b t, Expression.value_const b rest, Bool.or_self]

theorem Term.value_const (b : Bool) : ∀ t : Term, (t.value fun _ => b) = b
  | .factor f => Factor.value_const b f
  | .both f rest => by
    rw [Term.value, Factor.value_const b f, Term.value_const b rest, Bool.and_self]

theorem Factor.value_const (b : Bool) : ∀ f : Factor, (f.value fun _ => b) = b
  | .name _ => rfl
  | .group e => Expression.value_const b e

end

theorem Term.value_of_all {holds : String → Bool} (t : Term)
    (h : ∀ s ∈ t.names, holds s = true) : t.value holds = true :=
  Term.value_mono t (fun s hs _ => h s hs) (Term.value_const true t)

theorem Expression.value_of_all {holds : String → Bool} (e : Expression)
    (h : ∀ s ∈ e.names, holds s = true) : e.value holds = true :=
  Expression.value_mono e (fun s hs _ => h s hs) (Expression.value_const true e)

theorem Expression.value_of_none {holds : String → Bool} (e : Expression)
    (h : ∀ s ∈ e.names, holds s = false) : e.value holds = false := by
  rw [Bool.eq_false_iff]
  intro htrue
  have hnone : (e.value fun _ => false) = true := by
    refine Expression.value_mono e (fun s hs hholds => ?_) htrue
    rw [h s hs] at hholds
    cases hholds
  rw [Expression.value_const] at hnone
  cases hnone

/-- **A choice is torn apart.** If no two of several expressions share an identifier and one of them
offers a choice, then what is merged of them can hold while one of them does not. -/
theorem Expression.exists_torn {e : Expression} {es : List Expression}
    (hdisjoint : (e :: es).Pairwise fun a b => a.names.Disjoint b.names) (hes : es ≠ [])
    (hchoice : ∃ x ∈ e :: es, x.isTerm = false) :
    ∃ holds, (e.merged es).value holds = true ∧ ∃ x ∈ e :: es, x.value holds = false := by
  induction es generalizing e with
  | nil => exact absurd rfl hes
  | cons e' es ih =>
    obtain ⟨hapart, hdisjoint'⟩ := List.pairwise_cons.mp hdisjoint
    have hfirst : e.names.Disjoint e'.names := hapart e' (by simp)
    -- all that the identifiers of one expression make true
    let only (x : Expression) (s : String) : Bool := x.names.contains s
    have honly (x : Expression) : ∀ s ∈ x.names, only x s = true := by simp [only]
    have hother {x y : Expression} (h : x.names.Disjoint y.names) :
        ∀ s ∈ y.names, only x s = false := fun s hs => by
      simpa [only] using fun hx => h hx hs
    cases e with
    | either t rest =>
      -- the first term stands alone, and the next expression does not count for it
      refine ⟨only (.either t rest), ?_, e', by simp, Expression.value_of_none _ (hother hfirst)⟩
      have ht : t.value (only (.either t rest)) = true :=
        Term.value_of_all t fun s hs => honly _ s (List.mem_append_left _ hs)
      rw [Expression.merged, Expression.glue, Expression.value, ht]
      rfl
    | term t =>
      by_cases hnil : es = []
      · subst hnil
        cases e' with
        | term u => simp [Expression.isTerm] at hchoice
        | either u rest =>
          -- the last terms stand alone
          refine ⟨only (.either u rest), ?_, .term t, by simp,
            Expression.value_of_none _ (hother (List.disjoint_symm hfirst))⟩
          have hrest : rest.value (only (.either u rest)) = true :=
            Expression.value_of_all rest fun s hs => honly _ s (List.mem_append_right _ hs)
          rw [Expression.merged, Expression.merged, Expression.glue, Term.glue, Expression.value,
            hrest, Bool.or_true]
      · -- what is torn behind the term stays torn when the term holds as well
        obtain ⟨holds, hmerged, x, hx, hfalse⟩ :=
          ih hdisjoint' hnil (by simpa [Expression.isTerm] using hchoice)
        refine ⟨fun s => only (.term t) s || holds s, ?_, x, List.mem_cons_of_mem _ hx, ?_⟩
        · refine Expression.value_glue (Expression.value_of_all _ fun s hs => ?_)
            (Expression.value_mono _ (fun s _ hs => ?_) hmerged)
          · rw [honly _ s hs, Bool.true_or]
          · rw [hs, Bool.or_true]
        · rw [Bool.eq_false_iff, ne_eq] at hfalse ⊢
          refine fun htrue => hfalse (Expression.value_mono x (fun s hs hholds => ?_) htrue)
          rwa [hother (hapart x hx) s hs, Bool.false_or] at hholds

/-! ## Merged licences -/

/-- **What a merged licence means.** Declared expressions are merged to a text that reads as one
expression only: `UNLICENSED` if there are none, and else their terms in order, where the last term
of each is conjoined with the first term of the next. It holds wherever all declared expressions
hold. It means their conjunction if there is only one of them, or if none offers a choice outside
parentheses; and where no two of them share an identifier, only then. -/
theorem merged_license (texts : List String) (es : List Expression)
    (hreads : List.Forall₂ Reads texts es) :
    (texts = [] → mergeLicenses texts = "UNLICENSED") ∧
    ∀ e rest, es = e :: rest →
      (∀ m, Reads (mergeLicenses texts) m ↔ m = e.merged rest) ∧
      (∀ holds, (∀ x ∈ es, x.value holds = true) → (e.merged rest).value holds = true) ∧
      ((rest = [] ∨ ∀ x ∈ es, x.isTerm = true) →
        ∀ holds, (e.merged rest).value holds = es.all (·.value holds)) ∧
      (es.Pairwise (fun a b => a.names.Disjoint b.names) →
        (∀ holds, (e.merged rest).value holds = es.all (·.value holds)) →
          rest = [] ∨ ∀ x ∈ es, x.isTerm = true) := by
  refine ⟨fun hnone => by rw [hnone]; rfl, ?_⟩
  rintro e rest rfl
  obtain ⟨text, more, hfirst, hrest, rfl⟩ := List.forall₂_cons_right_iff.mp hreads
  have hread := reads_mergeLicenses hfirst hrest
  refine ⟨fun m => ⟨fun hm => ?_, fun hm => hm ▸ hread⟩, fun holds => Expression.value_merged, ?_,
    fun hdisjoint hequal => ?_⟩
  · exact Expression.tokens_inj (hm.symm.trans hread)
  · rintro (rfl | hterms) holds
    · rw [Expression.merged, List.all_cons, List.all_nil, Bool.and_true]
    · exact (Expression.merged_of_isTerm hterms).2 holds
  · by_contra hchoice
    obtain ⟨hmore, hchoice⟩ := not_or.mp hchoice
    obtain ⟨holds, htrue, x, hx, hfalse⟩ := Expression.exists_torn hdisjoint hmore
      (by simpa only [not_forall, exists_prop, Bool.not_eq_true] using hchoice)
    rw [hequal holds, List.all_eq_true] at htrue
    rw [htrue x hx] at hfalse
    cases hfalse

/-- A choice in parentheses is merged with a term: each of them counts. -/
theorem merged_license_grouped :
    let texts := ["(MIT OR Apache-2.0)", "BSD-3-Clause AND ISC"]
    let choice : Expression := .term (.factor (.group
      (.either (.factor (.name "MIT")) (.term (.factor (.name "Apache-2.0"))))))
    let terms : Expression := .term (.both (.name "BSD-3-Clause") (.factor (.name "ISC")))
    List.Forall₂ Reads texts [choice, terms] ∧
      mergeLicenses texts = "(MIT OR Apache-2.0) AND BSD-3-Clause AND ISC" ∧
      Reads (mergeLicenses texts) (choice.merged [terms]) ∧
      ∀ holds, (choice.merged [terms]).value holds = (choice.value holds && terms.value holds) := by
  intro texts choice terms
  have hreads : List.Forall₂ Reads texts [choice, terms] :=
    .cons (by decide +kernel) (.cons (by decide +kernel) .nil)
  obtain ⟨hmerged, -, hvalue, -⟩ :=
    (merged_license texts [choice, terms] hreads).2 choice [terms] rfl
  refine ⟨hreads, by decide +kernel, (hmerged _).mpr rfl, fun holds => ?_⟩
  rw [hvalue (.inr (by simp [choice, terms, Expression.isTerm])), List.all_cons, List.all_cons,
    List.all_nil, Bool.and_true]

/-- **A choice without parentheses is torn apart**: of `GPL-2.0-only` and of `MIT OR Apache-2.0` a
text is merged that `Apache-2.0` alone fulfils. -/
theorem merged_license_torn :
    let texts := ["GPL-2.0-only", "MIT OR Apache-2.0"]
    let gpl : Expression := .term (.factor (.name "GPL-2.0-only"))
    let choice : Expression :=
      .either (.factor (.name "MIT")) (.term (.factor (.name "Apache-2.0")))
    let torn : Expression := .either (.both (.name "GPL-2.0-only") (.factor (.name "MIT")))
      (.term (.factor (.name "Apache-2.0")))
    let holds (id : String) : Bool := id == "Apache-2.0"
    List.Forall₂ Reads texts [gpl, choice] ∧ Reads (mergeLicenses texts) torn ∧
      torn.value holds = true ∧ (gpl.value holds && choice.value holds) = false := by
  refine ⟨.cons ?_ (.cons ?_ .nil), ?_, ?_, ?_⟩ <;> decide +kernel

end ContractBuild.License
