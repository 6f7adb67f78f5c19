import MidnightOS.Mbuild.Layout
import MidnightOS.Mbuild.Emit

/-! # From the text of a file to the makefile

The scanner and the parser behind the evaluator.  A start condition outlives the file
in which it began: behind an error in a list the next file is read as entries.
-/

namespace MidnightOS.Mbuild

open MidnightOS.Lib

variable {Left : Type} {fs : FileSystem (List Char)}

/-! ## The makefile of a text -/

/-- A file of which no entry has a file to include becomes a makefile: a line for each list that a
statement touches, with the files of the list in the order of their paths. -/
theorem mbuildMain_of_text (ahead : ReadAhead) {root : Path} {text : List Char}
    {stmts : List Statement} (hdir : fs.isDirectory root = true) (hfile : fs.mbuild root = some text)
    (hwritten : WrittenFile stmts text) (hops : ∀ stmt ∈ stmts, stmt.node.op ≠ .invalid)
    (hmissing : ∀ stmt ∈ stmts, ∀ e ∈ stmt.node.entries fs root, fs.isDirectory e = true →
      fs.mbuild e = none)
    (order : Order Held) (depth : Nat) :
    ∃ s, mbuildMain fs (mbuildParser ahead) order (depth + 2) root .initial =
        .ok (some (emitMakefile (order.visit s) s.lists)) s ∧
      (order.visit s).Nodup ∧
      (∀ name, name ∈ order.visit s ↔ ∃ stmt ∈ stmts, stmt.ident = name ∧ stmt.node.touches) ∧
      ∀ row ∈ makefileLines (order.visit s) s.lists, row.contents.Pairwise (· < ·) ∧
        ∀ e, e ∈ row.contents ↔ e ∈ lasting fs root row.ident (stmts.map Statement.node) := by
  have hknown : ∀ node ∈ stmts.map Statement.node, node.op ≠ .invalid :=
    List.forall_mem_map.mpr hops
  obtain ⟨lists, hnodes⟩ := nodesLists_known fs root [] hknown
  have hparse : ((mbuildParser ahead).yyparse none text).accepted = true ∧
      ((mbuildParser ahead).yyparse none text).statements = stmts :=
    (yyparse_accepts_program ahead none text stmts).mpr (isProgram_iff.mpr hwritten.tokens)
  have hlists : rootLists fs (mbuildParser ahead) root = some lists := by
    rw [rootLists, if_pos hdir, hfile, Option.bind_some, hparse.1, hparse.2]
    exact hnodes
  have hinclude : ∀ name, ∀ d ∈ lists.data name, fs.isDirectory d = true → fs.mbuild d = none := by
    intro name d hd
    obtain ⟨node, hnode, hentry⟩ :=
      (nodesLists_entry hnodes hd).resolve_left List.not_mem_nil
    obtain ⟨stmt, hstmt, rfl⟩ := List.mem_map.mp hnode
    exact hmissing stmt hstmt d hentry
  obtain ⟨s, hrun, hfinal⟩ := mbuildMain_writes order hlists hinclude depth
  obtain ⟨hnames, hnodup⟩ := nodesLists_names hnodes
  have hperm : (order.visit s).Perm (lists.map Prod.fst) := by
    have hfiles : s.lists.map Prod.fst = lists.map Prod.fst := by
      rw [hfinal, Lists.files, List.map_map]
      rfl
    rw [← hfiles]
    exact order.perm s
  refine ⟨s, hrun, hperm.nodup_iff.mpr (hnodup List.nodup_nil), fun name => ?_, ?_⟩
  · rw [hperm.mem_iff, hnames]
    simp only [List.map_nil, List.not_mem_nil, false_or, List.mem_map, exists_exists_and_eq_and]
    rfl
  · intro row hrow
    obtain ⟨name, _, rfl⟩ := List.mem_map.mp hrow
    rw [hfinal]
    refine ⟨?_, fun e => written_mem_iff hnodes⟩
    rw [Lists.data_files]
    exact (nodesLists_sorted hnodes name List.Pairwise.nil).filter _

/-- One file in `/r`. -/
def textTree (text : List Char) : FileSystem (List Char) where
  isDirectory p := p = "/r"
  mbuild p := if p = "/r" then some text else none
  weaklyCanonical p := p
  mbuild_canonical p q h := by rw [h]

/-- A list of two objects, and an empty one that is set. -/
def objectText : List Char := "obj(b.o,a.o)tmp;x.set();".toList

def textStatements : List Statement :=
  [⟨"obj", none, ["b.o", "a.o"], ["tmp"]⟩, ⟨"x", some ".set", [], []⟩]

theorem objectText_written : WrittenFile textStatements objectText := by
  have hentries : WrittenEntries ["b.o", "a.o"]
      ([] ++ "b.o".toList ++ [] ++ ',' :: ([] ++ "a.o".toList ++ [])) :=
    .next (.nil _) ⟨by decide, by simp [isListChar]⟩ (.nil _)
      (.last (.nil _) ⟨by decide, by simp [isListChar]⟩ (.nil _))
  have hqualifiers : WrittenQualifiers ["tmp"] ([] ++ "tmp".toList ++ []) :=
    .next (.nil _) ⟨by decide, by simp [isIdentChar]⟩ (.nil (.nil _)) (by simp)
  have hset : WrittenOp (some ".set") ([] ++ '.' :: "set".toList ++ []) :=
    .op (.nil _) ⟨by decide, by simp⟩ (.nil _)
  have hobj : IsWord isIdentChar "obj".toList := ⟨by decide, by simp [isIdentChar]⟩
  have hx : IsWord isIdentChar "x".toList := ⟨by decide, by simp [isIdentChar]⟩
  exact .next (.nil _) (.statement hobj (.none (.nil _)) (.entries hentries) hqualifiers)
    (.next (.nil _) (.statement hx hset (.empty (.nil _)) (.nil (.nil _))) (.nil (.nil _)))

theorem mbuildMain_of_text_objects :
    ∃ s, mbuildMain (textTree objectText) (mbuildParser .all) storedOrder 2 "/r" .initial =
        .ok (some (emitMakefile (storedOrder.visit s) s.lists)) s ∧
      (storedOrder.visit s).Nodup ∧
      (∀ name, name ∈ storedOrder.visit s ↔
        ∃ stmt ∈ textStatements, stmt.ident = name ∧ stmt.node.touches) ∧
      ∀ row ∈ makefileLines (storedOrder.visit s) s.lists, row.contents.Pairwise (· < ·) ∧
        ∀ e, e ∈ row.contents ↔
          e ∈ lasting (textTree objectText) "/r" row.ident (textStatements.map Statement.node) := by
  have hobjects : ∀ stmt ∈ textStatements, ∀ e ∈ stmt.node.entries (textTree objectText) "/r",
      (textTree objectText).isDirectory e = false := by
    decide +kernel
  refine mbuildMain_of_text .all rfl rfl objectText_written (by decide +kernel)
    (fun stmt hstmt e he hdir => ?_) storedOrder 0
  rw [hobjects stmt hstmt e he] at hdir
  cases hdir

/-! ## Behind an error in a list -/

/-- The first token of a list is none with which a program begins. -/
theorem first_of_list {text : List Char} {t : Token} {ts : List Token}
    (h : lexTokens .list text = t :: ts) : Reading.idle.next t = none := by
  obtain ⟨last, later, htokens, rfl, -⟩ := List.map_eq_cons_iff.mp h
  suffices hcut : ∀ {start : Start} {tokens : List (Returned Char Start Token)},
      Cut start text tokens → start = .list → tokens = last :: later →
      Reading.idle.next last.token = none from
    hcut ((cut_iff _ _ _).mpr rfl) rfl htokens
  intro start tokens hcut
  clear h htokens
  induction hcut with
  | done => intro _ hnil; cases hnil
  | @lexeme start rule yytext rest more chosen _ ih =>
    rintro rfl htokens
    have hrule := chosen.mem
    simp only [lexer, List.mem_cons, List.not_mem_nil, or_false] at hrule
    -- a rule that returns nothing leaves the start condition as it is
    rcases hrule with rfl | rfl | rfl | rfl | rfl | rfl
    · exact ih rfl htokens
    · exact ih rfl htokens
    · cases htokens
      rfl
    · cases htokens
      rfl
    · cases htokens
      rfl
    · exact ih rfl htokens

/-- In the state that an error in a list leaves, a file yields no statement.  It is refused if there
is a token in what the scanner holds and the file, and taken in through the freed nodes if not. -/
theorem evalInternal_behind_list (ahead : ReadAhead) (order : Order Held) {dir : Path}
    (hdir : fs.isDirectory dir = true) {text : List Char} (hfile : fs.mbuild dir = some text)
    {s : State Held} (hfreed : s.ast = .freed) {held : Held} (hleft : s.left = some held)
    (hlist : held.start = .list) (depth : Nat) :
    (lexTokens .list (lexInput s.left text).2 ≠ [] → ∃ later,
      evalInternal fs (mbuildParser ahead) order (depth + 1) dir s =
        .ok .failure { s with left := some later }) ∧
    (lexTokens .list (lexInput s.left text).2 = [] → ∃ s',
      evalInternal fs (mbuildParser ahead) order (depth + 1) dir s = .error .freed s') := by
  have hstart : (lexInput s.left text).1 = .list := by
    rw [hleft]
    exact hlist
  have hyields := yyparse_yields ahead s.left text
  rw [hstart] at hyields
  constructor
  · intro htokens
    obtain ⟨t, ts, hfirst⟩ := List.exists_cons_of_ne_nil htokens
    have hwrong := first_of_list hfirst
    have hrun : Reading.idle.run (lexTokens .list (lexInput s.left text).2) = none := by
      rw [hfirst, Reading.run, hwrong]
    have hrefused : ((mbuildParser ahead).yyparse s.left text).refused := by
      change (yyparse ahead s.left text).refused
      cases hyields with
      | accepted more run => cases hrun.symm.trans run
      | unfinished r more hopen run => cases hrun.symm.trans run
      | refused before last after r more split run wrong result =>
        rw [result]
        refine ⟨?_, rfl⟩
        -- nothing is shifted before the first token
        cases before with
        | nil =>
          cases run
          rfl
        | cons first before =>
          rw [lexTokens, split, List.cons_append, List.map_cons] at hfirst
          cases hfirst
          simp [Reading.run, hwrong] at run
    exact ⟨_, evalInternal_refused order hdir hfile hrefused depth⟩
  · intro htokens
    have haccepted : ¬((mbuildParser ahead).yyparse s.left text).refused := by
      change ¬(yyparse ahead s.left text).refused
      have hnone : yylex .list (lexInput s.left text).2 = [] := List.map_eq_nil_iff.mp htokens
      rw [hnone] at hyields
      intro hrefused
      cases hyields with
      | accepted more run result =>
        rw [hrefused.2] at result
        cases result.1
      | unfinished r more hopen run result =>
        cases run
        exact hopen rfl
      | refused before last after r more split run wrong result => simp at split
    exact evalInternal_freed order hdir hfile hfreed haccepted depth

/-- The state behind a file whose list was not closed. -/
def openList : State Held :=
  { ast := .freed, left := some ⟨.list, [], false⟩, lists := [], visited := [], log := [] }

theorem evalInternal_behind_open_list :
    (lexTokens .list (lexInput openList.left "obj(a.o);".toList).2 ≠ [] → ∃ later,
      evalInternal (textTree "obj(a.o);".toList) (mbuildParser .all) storedOrder 1 "/r" openList =
        .ok .failure { openList with left := some later }) ∧
    (lexTokens .list (lexInput openList.left "obj(a.o);".toList).2 = [] → ∃ s',
      evalInternal (textTree "obj(a.o);".toList) (mbuildParser .all) storedOrder 1 "/r" openList =
        .error .freed s') :=
  evalInternal_behind_list .all storedOrder (by decide) rfl rfl rfl rfl 0

end MidnightOS.Mbuild
