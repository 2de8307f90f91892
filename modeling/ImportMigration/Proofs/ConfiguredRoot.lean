import ImportMigration.Config.Load
import ImportMigration.Proofs.Schema

/-!
Any text can be configured as the root. It can be written as a basic string, and however it is
written as one, a document that sets the root to this string gives the text back and nothing else
(`root_as_written`).
-/

namespace ImportMigration.Config

open Toml Quoted

variable {c : Char} {front spelled back : Text} {r : Text}

/-! ## Writing a string -/

/-- What stands for a character in a basic string. Every character that has a short escape is
written with it, and any other control character by its code point. -/
def escapeChar (c : Char) : Text :=
  match shortEscapes.find? fun (_, d) => d == c with
  | some (letter, _) => ['\\', letter]
  | none =>
    if isPrintable c then [c]
    else ['\\', 'u', '0', '0', (c.toNat / 16).digitChar, (c.toNat % 16).digitChar]

def escape (r : Text) : Text :=
  r.flatMap escapeChar

theorem hexDigit?_digitChar : ∀ n < 16, hexDigit? n.digitChar = some n := by
  decide

theorem isCode_of_lt (h : c.toNat < 0x80) :
    IsCode 4 ['0', '0', (c.toNat / 16).digitChar, (c.toNat % 16).digitChar] c := by
  have hhigh := hexDigit?_digitChar (c.toNat / 16) (by omega)
  have hlow := hexDigit?_digitChar (c.toNat % 16) (by omega)
  refine ⟨rfl, [0, 0, c.toNat / 16, c.toNat % 16], ?_, ?_⟩
  · simp [hhigh, hlow, show hexDigit? '0' = some 0 by rfl]
  · simp only [List.reverse_cons, List.reverse_nil, List.nil_append, List.cons_append,
      Nat.ofDigits_cons, Nat.ofDigits_nil]
    omega

theorem isBasic_escapeChar {b s : Text} (hb : IsBasic b s) (c : Char) :
    IsBasic (escapeChar c ++ b) (c :: s) := by
  unfold escapeChar
  split
  · rename_i letter d hfind
    obtain rfl : d = c := by simpa using List.find?_some hfind
    exact .escape (.short (List.mem_of_find?_eq_some hfind)) hb
  · rename_i hfind
    have hshort := List.find?_eq_none.mp hfind
    split
    · rename_i hprintable
      refine .char hprintable ?_ ?_ hb
      · rintro rfl
        exact hshort ('"', '"') (by decide) rfl
      · rintro rfl
        exact hshort ('\\', '\\') (by decide) rfl
    · rename_i hcontrol
      have hlt : c.toNat < 0x80 := by
        simp only [isPrintable, Bool.or_eq_true, Bool.and_eq_true, decide_eq_true_eq,
          bne_iff_ne, not_or, not_and, Decidable.not_not] at hcontrol
        omega
      exact .escape (.code (by decide) (isCode_of_lt hlt)) hb

theorem isBasic_escape (r : Text) : IsBasic (escape r) r := by
  induction r with
  | nil => exact .nil
  | cons c r ih => exact isBasic_escapeChar ih c

/-! ## The document -/

/-- What may follow the one expression of a document: spaces and a comment on its line, and below it
blank lines and comments. -/
inductive IsTrailer : Text → Prop where
  | done {a k : Text} (ha : IsSpaces a) (hk : IsRemark k) : IsTrailer (a ++ k)
  | more {a k b u k' : Text} (ha : IsSpaces a) (hk : IsRemark k) (hb : IsBreak b)
    (hu : IsBlank true u) (hk' : IsRemark k') : IsTrailer (a ++ (k ++ (b ++ (u ++ k'))))

/-- A document that sets the root to a basic string. -/
def rootDocument (front spelled back : Text) : Text :=
  front ++ ("root = \"".toList ++ (spelled ++ '"' :: back))

theorem isExpression_root (h : IsBasic spelled r) :
    IsExpression .standard ("root = \"".toList ++ (spelled ++ ['"']))
      (.assign [rootKey] (.string r)) := by
  have hkey : IsKey rootKey rootKey := .bare (by decide) (List.all_eq_true.mp rfl)
  have hspace : IsSpaces [' '] := by simp [IsSpaces, isSpace]
  have hvalue : IsValue .standard 0 ('"' :: (spelled ++ ['"'])) (.string r) :=
    .string (.basic h)
  have hexpression := IsExpression.assign trivial
    (.mk ⟨.single hkey, trivial⟩ hspace hspace hvalue)
  simpa [rootKey] using hexpression

theorem areLines_root (hfront : IsBlank true front) (h : IsBasic spelled r)
    (hback : IsTrailer back) :
    AreLines .standard (rootDocument front spelled back) [.assign [rootKey] (.string r)] := by
  have hexpression := isExpression_root h
  cases hback with
  | done ha hk =>
    have hlines := AreLines.last hfront hexpression ha hk
    simpa [rootDocument] using hlines
  | more ha hk hb hu hk' =>
    have hlines := AreLines.more hfront hexpression ha hk hb (.done hu hk')
    simpa [rootDocument] using hlines

theorem setsOnly_root (r : Text) :
    SetsOnly (some (.ofText r)) [.assign [rootKey] (.string r)] where
  others k hk := by
    rw [history_singleton rootKey _ (List.cons_ne_nil _ _), if_neg]
    exact fun h => hk (List.cons.inj h).1
  root := .inr ⟨r, rfl, by rw [history_singleton rootKey _ (List.cons_ne_nil _ _), if_pos rfl]⟩

theorem parse_rootDocument (hfront : IsBlank true front) (h : IsBasic spelled r)
    (hback : IsTrailer back) :
    parse (rootDocument front spelled back) = .ok (some (.ofText r)) :=
  parse_eq_ok_iff.mpr
    ⟨_, ⟨.plain (areLines_root hfront h hback), consistent_one _⟩, setsOnly_root r⟩

/-- Every text can be written as a basic string. However it is, the root that a document sets to
this string is the text itself, and without a root on the command line the run takes it as it
stands if it is absolute, and from the directory of the config file otherwise. -/
theorem root_as_written (r : Text) :
    IsBasic (escape r) r ∧
    ∀ front spelled back, IsBlank true front → IsBasic spelled r → IsTrailer back →
      parse (rootDocument front spelled back) = .ok (some (.ofText r)) ∧
      ∀ p mode, ∃ config, ofText p (rootDocument front spelled back) = .ok config ∧
        (options (some config) none mode).root =
          if (Path.ofText r).isAbsolute then .ofText r
          else (p.parent?.getD ⟨[]⟩).join (.ofText r) := by
  refine ⟨isBasic_escape r, fun front spelled back hfront h hback => ?_⟩
  have hparse := parse_rootDocument hfront h hback
  refine ⟨hparse, fun p mode => ⟨⟨p, some (.ofText r)⟩, ?_, rfl⟩⟩
  rw [ofText, hparse]

/-- A comment and a blank line. -/
def remarkLines : Text :=
  ['#', ' ', 'r', '\n', '\n']

/-- A comment on the line of the root, and a blank line. -/
def remarkTrailer : Text :=
  [' ', '#', 'r', '\n', '\n']

/-- A relative root with characters that have to be escaped. -/
def quotedRoot : Text :=
  ['a', '"', '\\', '\n', Char.ofNat 0x7F]

theorem quotedRoot_as_written :
    parse (rootDocument remarkLines (escape quotedRoot) remarkTrailer) =
      .ok (some (.ofText quotedRoot)) ∧
    ∃ config, ofText (.ofText "conf/m.toml".toList)
        (rootDocument remarkLines (escape quotedRoot) remarkTrailer) = .ok config ∧
      (options (some config) none .dryRun).root = .ofText ("conf/".toList ++ quotedRoot) := by
  have hfront : IsBlank true remarkLines :=
    .comment (k := ['#', ' ', 'r']) rfl (.mk _ (List.all_eq_true.mp rfl)) .lf
      (.lineBreak (u := []) .lf .nil)
  have hspace : IsSpaces [' '] := by simp [IsSpaces, isSpace]
  have hremark : IsRemark ['#', 'r'] := .inr (.mk _ (List.all_eq_true.mp rfl))
  have hblank : IsBlank true ['\n'] := .lineBreak (u := []) .lf .nil
  have hback : IsTrailer remarkTrailer := .more hspace hremark .lf hblank (.inl rfl)
  obtain ⟨hspelled, hall⟩ := root_as_written quotedRoot
  obtain ⟨hparse, hroot⟩ := hall _ _ _ hfront hspelled hback
  obtain ⟨config, hconfig, hoptions⟩ := hroot (.ofText "conf/m.toml".toList) .dryRun
  exact ⟨hparse, config, hconfig, hoptions.trans (by decide +kernel)⟩

end ImportMigration.Config
