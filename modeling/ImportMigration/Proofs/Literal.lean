import ImportMigration.Import.Pattern
import ImportMigration.Proofs.Division
import ImportMigration.Proofs.Expression

/-!
Packages are taken literally where a rule is written out. Whatever characters the old package has,
the part of the expression that it becomes matches the package and nothing else, and the whole
expression the imports of the package; and whatever the new one has, it comes out of the template as
it is.
-/

namespace ImportMigration.Import

open Text

namespace Expression

def quoteParts : List Expression :=
  [.oneOf (.among ['"', '\''])]

def blanks : Expression :=
  .times .atLeastOnce true (.oneOf .blank)

def bindings : Expression :=
  .times .anyNumber false (.oneOf (.except ['\'', '"', ';', '\n']))

def clauseParts : List Expression :=
  [blanks, bindings, blanks] ++ fromWord.map .char ++ [blanks]

/-- What stands before the package, in the expression of any rule. -/
def openingParts : List Expression :=
  [.group (some "stmt".toList) (seq (importWord.map .char ++ clauseParts)),
    .group (some "quote".toList) (seq quoteParts)]

def subpathParts : List Expression :=
  [.times .atLeastOnce true (.oneOf (.except ['\'', '"', '\n']))]

def tailParts : Form → List Expression
  | .exact => []
  | .subpath => [.char '/', .group (some "subpath".toList) (seq subpathParts)]

namespace Reader

variable (b : Branch) (outer : List (Option Text × Branch))

theorem plainStep_of_not_mem {c : Char} (h : c ∉ metacharacters) (s : Reader) :
    s.plainStep c = some (s.push (.char c)) := by
  unfold plainStep
  split <;> first | rfl | exact absurd (by decide) h

theorem escaped?_of_mem {c : Char} (h : c ∈ metacharacters) : escaped? c = some c ∧ c ≠ 's' := by
  have hall : metacharacters.all (fun c => escaped? c = some c ∧ c ≠ 's') = true := by decide
  exact of_decide_eq_true (List.all_eq_true.mp hall c h)

/-- An escaped text is read as its characters, whatever has been read before it. -/
theorem foldlM_escapePattern (t : Text) : (escapePattern t).foldlM step ⟨.plain, b, outer⟩ =
    some ⟨.plain, ⟨b.before, (t.map .char).reverse ++ b.parts⟩, outer⟩ := by
  induction t generalizing b with
  | nil => rfl
  | cons c t ih =>
    have hc : (if c ∈ metacharacters then ['\\', c] else [c]).foldlM step ⟨.plain, b, outer⟩ =
        some ⟨.plain, b.push (.char c), outer⟩ := by
      split
      · rename_i h
        obtain ⟨he, hs⟩ := escaped?_of_mem h
        simp [step, plainStep, he, hs, push]
      · rename_i h
        simp [step, plainStep_of_not_mem h, push]
    rw [escapePattern, List.flatMap_cons, List.foldlM_append, hc, Option.bind_eq_bind,
      Option.bind_some, ← escapePattern, ih]
    simp [Branch.push]

theorem foldlM_openingPattern :
    Rule.openingPattern.foldlM step start = some ⟨.plain, ⟨none, openingParts.reverse⟩, []⟩ := by
  decide +kernel

theorem foldlM_subpath : "/(?P<subpath>[^'\"\\n]+)".toList.foldlM step ⟨.plain, b, outer⟩ =
    some ⟨.plain, ⟨b.before, (tailParts .subpath).reverse ++ b.parts⟩, outer⟩ := by
  rfl

theorem foldlM_quote : "[\"']".toList.foldlM step ⟨.plain, b, outer⟩ =
    some ⟨.plain, ⟨b.before, quoteParts.reverse ++ b.parts⟩, outer⟩ := by
  rfl

end Reader

theorem read?_escapePattern (t : Text) : read? (escapePattern t) = some (seq (t.map .char)) := by
  rw [read?, Reader.start, Reader.foldlM_escapePattern]
  simp [Reader.finish, Branch.expression]

/-- Without the backslash, a dot matches more than itself. -/
example : read? ['a', '.'] = some (seq [.char 'a', .oneOf (.except ['\n'])]) := by
  decide +kernel

/-- An escaped package stands in its rule's expression as its characters. -/
theorem read?_pattern (r : Rule) : read? r.pattern =
    some (seq (openingParts ++ r.old.map .char ++ (tailParts r.form ++ quoteParts))) := by
  obtain ⟨form, old, new⟩ := r
  have hopening (rest : Text) :
      (Rule.openingPattern ++ escapePattern old ++ rest).foldlM Reader.step Reader.start =
        rest.foldlM Reader.step
          ⟨.plain, ⟨none, (old.map .char).reverse ++ openingParts.reverse⟩, []⟩ := by
    rw [List.foldlM_append, List.foldlM_append, Reader.foldlM_openingPattern, Option.bind_eq_bind,
      Option.bind_some, Reader.foldlM_escapePattern]
    rfl
  have hfinish (parts : List Expression) :
      Reader.finish ⟨.plain, ⟨none, parts⟩, []⟩ = some (seq parts.reverse) := rfl
  rw [read?, Rule.pattern, List.append_assoc, hopening, List.foldlM_append]
  cases form with
  | exact =>
    rw [List.foldlM_nil, Option.pure_def, Option.bind_eq_bind, Option.bind_some,
      Reader.foldlM_quote, Option.bind_some, hfinish]
    simp only [List.reverse_append, List.reverse_reverse, tailParts, List.nil_append]
  | subpath =>
    rw [Reader.foldlM_subpath, Option.bind_eq_bind, Option.bind_some, Reader.foldlM_quote,
      Option.bind_some, hfinish]
    simp only [List.reverse_append, List.reverse_reverse, List.append_assoc]

theorem mem_quoteParts_iff {t : Text} :
    t ∈ (seq quoteParts).language ↔ ∃ q, isQuote q = true ∧ t = [q] := by
  simp only [quoteParts, language_seq_cons, language_seq_nil, mul_one, mem_oneOf_iff]
  refine exists_congr fun q => and_congr_left fun _ => ?_
  rw [CharClass.holds_among_iff]
  grind [isQuote]

theorem mem_blanks_iff {t : Text} : t ∈ blanks.language ↔ Blanks t :=
  mem_atLeastOnce_iff

theorem mem_bindings_iff {t : Text} : t ∈ bindings.language ↔ ∀ c ∈ t, isBinding c = true := by
  rw [bindings, mem_anyNumber_iff]
  refine forall₂_congr fun c _ => ?_
  rw [CharClass.holds_except_iff, isBinding_iff]
  grind [isQuote]

theorem mem_clauseParts_iff {t : Text} :
    t ∈ (seq clauseParts).language ↔ isClause t = true := by
  rw [isClause_iff, clauseParts]
  simp only [language_seq_append, language_chars, language_seq_cons, language_seq_nil, mul_one,
    Language.mem_mul, mem_blanks_iff, mem_bindings_iff, mem_singleton_iff]
  constructor
  · rintro ⟨_, ⟨_, ⟨a, ha, _, ⟨b, hb, c, hc, rfl⟩, rfl⟩, _, rfl, rfl⟩, d, hd, rfl⟩
    exact ⟨a, b, c, d, by simp, ha, hb, hc, hd⟩
  · rintro ⟨a, b, c, d, rfl, ha, hb, hc, hd⟩
    exact ⟨_, ⟨_, ⟨a, ha, _, ⟨b, hb, c, hc, rfl⟩, rfl⟩, _, rfl, rfl⟩, d, hd, by simp⟩

theorem mem_openingParts_iff {t : Text} : t ∈ (seq openingParts).language ↔
    ∃ clause q, isClause clause = true ∧ isQuote q = true ∧ t = importWord ++ clause ++ [q] := by
  simp only [openingParts, language_seq_cons, language_seq_nil, mul_one, language,
    language_seq_append, language_chars, Language.mem_mul, mem_clauseParts_iff, mem_quoteParts_iff,
    mem_singleton_iff]
  constructor
  · rintro ⟨_, ⟨_, rfl, clause, hcl, rfl⟩, _, ⟨q, hq, rfl⟩, rfl⟩
    exact ⟨clause, q, hcl, hq, rfl⟩
  · rintro ⟨clause, q, hcl, hq, rfl⟩
    exact ⟨_, ⟨_, rfl, clause, hcl, rfl⟩, _, ⟨q, hq, rfl⟩, rfl⟩

theorem mem_subpathParts_iff {t : Text} :
    t ∈ (seq subpathParts).language ↔ t ≠ [] ∧ ∀ c ∈ t, isSubpath c = true := by
  simp only [subpathParts, language_seq_cons, language_seq_nil, mul_one, mem_atLeastOnce_iff]
  refine and_congr_right fun _ => forall₂_congr fun c _ => ?_
  rw [CharClass.holds_except_iff, isSubpath_iff]
  grind [isQuote]

theorem mem_tailParts_iff {form : Form} {t : Text} :
    t ∈ (seq (tailParts form)).language ↔ form.isTail t = true := by
  cases form with
  | exact => rw [Form.isTail_exact, tailParts, language_seq_nil, Language.mem_one]
  | subpath =>
    rw [Form.isTail_subpath, tailParts]
    simp only [language_seq_cons, language_seq_nil, mul_one, language, Language.mem_mul,
      mem_singleton_iff, mem_subpathParts_iff]
    constructor
    · rintro ⟨_, rfl, sub, ⟨hne, hsub⟩, rfl⟩
      exact ⟨sub, rfl, hne, hsub⟩
    · rintro ⟨sub, rfl, hne, hsub⟩
      exact ⟨['/'], rfl, sub, ⟨hne, hsub⟩, rfl⟩

/-- The expression of a rule matches the imports that the rule looks for. -/
theorem mem_language_iff (form : Form) (package t : Text) :
    t ∈ (seq (openingParts ++ package.map .char ++ (tailParts form ++ quoteParts))).language ↔
      ∃ s : Statement, s.Spelled form ∧ t = s.text package := by
  simp only [language_seq_append, language_chars, Language.mem_mul, mem_openingParts_iff,
    mem_tailParts_iff, mem_quoteParts_iff, mem_singleton_iff]
  constructor
  · rintro ⟨_, ⟨_, ⟨clause, q, hcl, hq, rfl⟩, _, rfl, rfl⟩, _, ⟨tail, ht, _, ⟨q', hq', rfl⟩, rfl⟩, rfl⟩
    refine ⟨⟨clause, q, tail, q'⟩, Statement.spelled_iff.mpr ?_, by simp [Statement.text]⟩
    exact ⟨inClause_of_isClause hcl, hcl, hq, ht, hq'⟩
  · rintro ⟨s, hs, rfl⟩
    obtain ⟨_, hcl, hq, ht, hq'⟩ := Statement.spelled_iff.mp hs
    exact ⟨_, ⟨_, ⟨_, _, hcl, hq, rfl⟩, _, rfl, rfl⟩, _, ⟨_, ht, _, ⟨_, hq', rfl⟩, rfl⟩,
      by simp [Statement.text]⟩

end Expression

namespace Template

/-- Whether a character can stand in the name of a group without braces about it. -/
def isNameChar (c : Char) : Bool :=
  c.isAlphanum || c == '_'

/-- The name of a group at the front of a text, and the text after it. Without braces the name is as
long as possible. -/
def readName? : Text → Option (Text × Text)
  | '\x7b' :: t =>
    match t.dropWhile (· != '\x7d') with
    | [] => none
    | _ :: rest => some (t.takeWhile (· != '\x7d'), rest)
  | t =>
    if t.head?.any isNameChar then some (t.takeWhile isNameChar, t.dropWhile isNameChar) else none

theorem length_lt_of_readName? {t name rest : Text} (h : readName? t = some (name, rest)) :
    rest.length < t.length := by
  unfold readName? at h
  split at h
  · rename_i t
    have hlen := (List.dropWhile_suffix (· != '\x7d') (l := t)).length_le
    split at h
    · contradiction
    · rename_i hd
      obtain ⟨_, rfl⟩ := Prod.mk.inj (Option.some.inj h)
      rw [hd, List.length_cons] at hlen
      rw [List.length_cons]
      omega
  · split at h
    · rename_i hc
      obtain ⟨_, rfl⟩ := Prod.mk.inj (Option.some.inj h)
      obtain ⟨c, hc, hn⟩ := (Option.any_eq_true _ _).mp hc
      obtain ⟨t, rfl⟩ := List.head?_eq_some_iff.mp hc
      rw [List.dropWhile_cons_of_pos hn, List.length_cons]
      exact Nat.lt_succ_of_le (List.dropWhile_suffix isNameChar).length_le
    · contradiction

/-- What a template becomes, by what each group has captured. A `$` stands before the name of a
group or before another `$`, and else for itself. -/
def expand (group : Text → Text) : Text → Text
  | [] => []
  | '$' :: '$' :: t => '$' :: expand group t
  | '$' :: t =>
    match _h : readName? t with
    | some (name, rest) => group name ++ expand group rest
    | none => '$' :: expand group t
  | c :: t => c :: expand group t
termination_by t => t.length
decreasing_by
  · simp only [List.length_cons]
    omega
  · have := length_lt_of_readName? _h
    simp only [List.length_cons]
    omega
  · exact Nat.lt_succ_self _
  · exact Nat.lt_succ_self _

variable (group : Text → Text)

theorem expand_dollars (t : Text) : expand group ('$' :: '$' :: t) = '$' :: expand group t := by
  rw [expand]

theorem expand_plain {c : Char} (h : c ≠ '$') (t : Text) :
    expand group (c :: t) = c :: expand group t := by
  rw [expand]
  · simp [h]
  · simp [h]

/-- At the front of a template, the text becomes another one, and nothing behind it matters. -/
def Expands (t u : Text) : Prop :=
  ∀ rest, expand group (t ++ rest) = u ++ expand group rest

variable {group}

theorem Expands.append {t t' u u' : Text} (h : Expands group t u) (h' : Expands group t' u') :
    Expands group (t ++ t') (u ++ u') := by
  intro rest
  rw [List.append_assoc, h, h', List.append_assoc]

variable (group)

/-- What is written between braces names a group. -/
theorem expands_braced {name : Text} (h : '\x7d' ∉ name) :
    Expands group ('$' :: '\x7b' :: (name ++ ['\x7d'])) (group name) := by
  intro rest
  have hread : readName? ('\x7b' :: (name ++ '\x7d' :: rest)) = some (name, rest) := by
    have hne : ∀ c ∈ name, (c != '\x7d') = true := by
      rintro c hc
      rw [bne_iff_ne]
      rintro rfl
      exact h hc
    simp only [readName?, List.dropWhile_append_of_pos hne, List.takeWhile_append_of_pos hne]
    simp
  rw [List.cons_append, List.cons_append, List.append_assoc, List.singleton_append, expand]
  · split
    · rename_i he
      rw [hread] at he
      obtain ⟨rfl, rfl⟩ := Prod.mk.inj (Option.some.inj he)
      rfl
    · rename_i he
      rw [hread] at he
      contradiction
  · simp

theorem expands_escapeTemplate (t : Text) : Expands group (escapeTemplate t) t := by
  intro rest
  induction t with
  | nil => rfl
  | cons c t ih =>
    rw [escapeTemplate, List.flatMap_cons, ← escapeTemplate, List.append_assoc]
    split
    · rename_i hc
      rw [hc, List.cons_append, List.cons_append, List.nil_append, expand_dollars, ih,
        List.cons_append]
    · rename_i hc
      rw [List.cons_append, List.nil_append, expand_plain group hc, ih, List.cons_append]

theorem expands_quote : Expands group "$\x7bquote\x7d".toList (group "quote".toList) :=
  @expands_braced group "quote".toList (by decide)

theorem expands_stmt_quote : Expands group "$\x7bstmt\x7d$\x7bquote\x7d".toList
    (group "stmt".toList ++ group "quote".toList) :=
  (@expands_braced group "stmt".toList (by decide)).append (expands_quote group)

theorem expands_subpath :
    Expands group "/$\x7bsubpath\x7d".toList ('/' :: group "subpath".toList) := by
  have hslash : Expands group ['/'] ['/'] := expand_plain group (by decide)
  exact hslash.append (@expands_braced group "subpath".toList (by decide))

/-- What stands behind the package: nothing, or a slash and the subpath that was captured. -/
def capturedTail : Form → Text
  | .exact => []
  | .subpath => '/' :: group "subpath".toList

/-- The template of a rule puts the rule's new package between the quotes. -/
theorem expand_template (r : Rule) : expand group r.template =
    group "stmt".toList ++ group "quote".toList ++ r.new ++ capturedTail group r.form ++
      group "quote".toList := by
  have hpackage := (expands_stmt_quote group).append (expands_escapeTemplate group r.new)
  have hall : Expands group r.template (group "stmt".toList ++ group "quote".toList ++ r.new ++
      capturedTail group r.form ++ group "quote".toList) := by
    obtain ⟨form, old, new⟩ := r
    cases form with
    | exact => exact (hpackage.append fun rest => rfl).append (expands_quote group)
    | subpath => exact (hpackage.append (expands_subpath group)).append (expands_quote group)
  have h := hall []
  rwa [List.append_nil, expand, List.append_nil] at h

end Template

open Expression Template

/-- Whatever characters the packages of a rule have, the written rule takes them literally. In the
expression of a rule, the old package becomes a part that matches the package and no other text, and
the parts about it are the same for all packages; so the expression matches the imports of the
package. Where the template is expanded, whatever its groups have captured, the new package stands
in it as it is. -/
theorem packages_taken_literally (form : Form) :
    ∃ front back : List Expression, ∀ old new : Text,
      (∃ part, read? (escapePattern old) = some (seq part) ∧ (seq part).language = {old} ∧
        read? (Rule.pattern ⟨form, old, new⟩) = some (seq (front ++ part ++ back)) ∧
        ∀ t, t ∈ (seq (front ++ part ++ back)).language ↔
          ∃ s : Statement, s.Spelled form ∧ t = s.text old) ∧
      ∀ group : Text → Text, expand group (Rule.template ⟨form, old, new⟩) =
        group "stmt".toList ++ group "quote".toList ++ new ++ capturedTail group form ++
          group "quote".toList := by
  refine ⟨openingParts, tailParts form ++ quoteParts, fun old new => ⟨⟨old.map .char, ?_⟩, ?_⟩⟩
  · exact ⟨read?_escapePattern old, language_chars old, read?_pattern ⟨form, old, new⟩,
      mem_language_iff form old⟩
  · exact fun group => expand_template group ⟨form, old, new⟩

end ImportMigration.Import
