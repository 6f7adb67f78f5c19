import MidnightOS.Debug.Command

/-! # Splitting a line into words

`dbg_parsecmd` leaves a pointer for each of the first words of the line, to a string
that is the word.
-/

namespace MidnightOS.Debug

open MidnightOS.Lib

/-- The maximal runs of characters that are not white space. -/
def words (line : List Byte) : List (List Byte) :=
  (line.splitOnP dbgIsspace).filter (· ≠ [])

theorem words_space {c : Byte} (h : dbgIsspace c = true) (line : List Byte) :
    words (c :: line) = words line := by
  have := List.splitOnP_append_cons (p := dbgIsspace) [] line h
  rw [List.nil_append] at this
  simp [words, this]

theorem words_spaces {spaces : List Byte} (h : ∀ c ∈ spaces, dbgIsspace c = true)
    (line : List Byte) : words (spaces ++ line) = words line := by
  induction spaces with
  | nil => rfl
  | cons c spaces ih =>
    rw [List.cons_append, words_space (h c List.mem_cons_self)]
    exact ih fun other hother => h other (List.mem_cons_of_mem _ hother)

theorem words_word_space {word : List Byte} (hword : ∀ c ∈ word, dbgIsspace c = false)
    (hne : word ≠ []) {c : Byte} (hc : dbgIsspace c = true) (line : List Byte) :
    words (word ++ c :: line) = word :: words line := by
  rw [words, List.splitOnP_append_cons_of_forall_mem hword c hc, List.filter_cons_of_pos]
  · rfl
  · simpa using hne

theorem words_word {word : List Byte} (hword : ∀ c ∈ word, dbgIsspace c = false)
    (hne : word ≠ []) : words word = [word] := by
  simp [words, List.splitOnP_eq_singleton hword, hne]

/-! ## Reading the buffer -/

theorem load_append (pre : List Byte) (c : Byte) (rest : List Byte) :
    load (pre ++ c :: rest) pre.length = .ok c := by
  simp [load]

/-- A run that is followed by something else. -/
theorem runOf_append {p : Byte → Bool} {run : List Byte} (hrun : ∀ c ∈ run, p c = true) {c : Byte}
    (hc : p c = false) (rest : List Byte) : runOf p (run ++ c :: rest) = .ok run.length := by
  induction run with
  | nil => simp [runOf, hc]
  | cons first run ih =>
    have htail := ih fun other hother => hrun other (List.mem_cons_of_mem _ hother)
    rw [List.cons_append, runOf, if_pos (hrun first List.mem_cons_self), htail]
    rfl

/-- The pointer `p` points to the string `word` in the buffer. -/
def PointsTo (buff : List Byte) (word : List Byte) (p : Nat) : Prop :=
  0 ∈ buff.drop p ∧ textOf (buff.drop p) = word

theorem textOf_append_nul_cons {word : List Byte} (h : 0 ∉ word) (rest : List Byte) :
    textOf (word ++ 0 :: rest) = word := by
  induction word with
  | nil => rfl
  | cons c word ih =>
    rw [List.mem_cons, not_or] at h
    rw [List.cons_append, textOf_cons (Ne.symm h.1), ih h.2]

theorem pointsTo_append (pre : List Byte) {word : List Byte} (h : 0 ∉ word) (rest : List Byte) :
    PointsTo (pre ++ (word ++ 0 :: rest)) word pre.length := by
  unfold PointsTo
  rw [List.drop_left]
  exact ⟨by simp, textOf_append_nul_cons h rest⟩

/-! ## The loop -/

/-- How a line goes on at a round of `dbg_parsecmd`: white space, then either its end or a
word and, behind it, the end or more of the line. -/
inductive Front : List Byte → Prop where
  | blank {spaces : List Byte} (hspaces : ∀ c ∈ spaces, dbgIsspace c = true) : Front spaces
  | last {spaces word : List Byte} (hspaces : ∀ c ∈ spaces, dbgIsspace c = true)
      (hword : ∀ c ∈ word, dbgIsspace c = false) (hne : word ≠ []) : Front (spaces ++ word)
  | more {spaces word : List Byte} (hspaces : ∀ c ∈ spaces, dbgIsspace c = true)
      (hword : ∀ c ∈ word, dbgIsspace c = false) (hne : word ≠ []) (c : Byte)
      (hc : dbgIsspace c = true) (line : List Byte) : Front (spaces ++ (word ++ c :: line))

theorem not_of_dropWhile_cons {p : Byte → Bool} {line rest : List Byte} {c : Byte}
    (h : line.dropWhile p = c :: rest) : p c = false := by
  have hhead := List.head?_dropWhile_not p line
  rw [h] at hhead
  exact hhead

theorem front (line : List Byte) : Front line := by
  have hsplit := List.takeWhile_append_dropWhile (p := dbgIsspace) (l := line)
  have hspaces : ∀ c ∈ line.takeWhile dbgIsspace, dbgIsspace c = true :=
    fun c hc => List.mem_takeWhile_imp hc
  cases hrest : line.dropWhile dbgIsspace with
  | nil =>
    rw [hrest, List.append_nil] at hsplit
    rw [← hsplit]
    exact .blank hspaces
  | cons first rest =>
    -- the line begins with white space, then a word
    have hsplit' := List.takeWhile_append_dropWhile (p := fun c => !dbgIsspace c) (l := first :: rest)
    have hword : ∀ c ∈ (first :: rest).takeWhile (fun c => !dbgIsspace c), dbgIsspace c = false :=
      fun c hc => by simpa using List.mem_takeWhile_imp hc
    have hne : (first :: rest).takeWhile (fun c => !dbgIsspace c) ≠ [] := by
      rw [List.takeWhile_cons_of_pos (by simp [not_of_dropWhile_cons hrest])]
      exact List.cons_ne_nil _ _
    cases hline : (first :: rest).dropWhile (fun c => !dbgIsspace c) with
    | nil =>
      rw [hline, List.append_nil] at hsplit'
      rw [← hsplit, hrest, ← hsplit']
      exact .last hspaces hword hne
    | cons c line =>
      have hc := not_of_dropWhile_cons hline
      rw [hline] at hsplit'
      rw [← hsplit, hrest, ← hsplit']
      exact .more hspaces hword hne c (by simpa using hc) line

theorem inWord_zero : inWord 0 = false := by decide

theorem isspace_zero : dbgIsspace 0 = false := by decide

theorem inWord_of_word {word : List Byte} (hword : ∀ c ∈ word, dbgIsspace c = false)
    (hnul : 0 ∉ word) : ∀ c ∈ word, inWord c = true := by
  intro c hc
  have hne : c ≠ 0 := fun heq => hnul (heq ▸ hc)
  exact decide_eq_true ⟨hne, by simp [hword c hc]⟩

/-- What a run of the loop leaves of the line behind `pre`: the pointers `ptrs` to the words
it found room for, and the rest of `argv` as it was. -/
structure SplitsInto (pre tail rest : List Byte) (argv : List (Option Nat)) (argc room : Nat)
    (mid : List Byte) (ptrs : List Nat) (result : Except Fault Parsed) : Prop where
  returns : result = .ok ⟨pre ++ (mid ++ 0 :: tail),
    argv.take argc ++ ptrs.map some ++ argv.drop (argc + ptrs.length), argc + ptrs.length⟩
  sameLength : mid.length = rest.length
  pointers : List.Forall₂ (PointsTo (pre ++ (mid ++ 0 :: tail))) ((words rest).take room) ptrs

/-- Which characters a run of the loop replaces: from `start` on, `rest` becomes `mid`, by
a NUL behind each word that is not the end of the line. -/
inductive Cut : (start : Nat) → (rest mid : List Byte) → (ptrs : List Nat) → Prop where
  | done (start : Nat) (rest : List Byte) : Cut start rest rest []
  | last (start : Nat) {spaces word : List Byte} (hspaces : ∀ c ∈ spaces, dbgIsspace c = true)
      (hword : ∀ c ∈ word, dbgIsspace c = false) (hne : word ≠ []) :
      Cut start (spaces ++ word) (spaces ++ word) [start + spaces.length]
  | more {start : Nat} {spaces word line mid : List Byte} {c : Byte} {ptrs : List Nat}
      (hspaces : ∀ c ∈ spaces, dbgIsspace c = true) (hword : ∀ c ∈ word, dbgIsspace c = false)
      (hne : word ≠ []) (hc : dbgIsspace c = true)
      (h : Cut (start + spaces.length + word.length + 1) line mid ptrs) :
      Cut start (spaces ++ (word ++ c :: line)) (spaces ++ (word ++ 0 :: mid))
        ((start + spaces.length) :: ptrs)

theorem parseLoop_full {maxArgs argc : Nat} (h : ¬argc < maxArgs) (fuel : Nat)
    (pre : List Byte) (c : Byte) (rest : List Byte) (argv : List (Option Nat)) :
    parseLoop maxArgs (fuel + 1) pre.length ⟨pre ++ c :: rest, argv, argc⟩ =
      .ok ⟨pre ++ c :: rest, argv, argc⟩ := by
  rw [parseLoop, load_append, ok_bind, if_neg fun hc => h hc.2]

/-- At the end of the line. -/
theorem parseLoop_nul (maxArgs fuel : Nat) (pre rest : List Byte) (argv : List (Option Nat))
    (argc : Nat) :
    parseLoop maxArgs (fuel + 1) pre.length ⟨pre ++ 0 :: rest, argv, argc⟩ =
      .ok ⟨pre ++ 0 :: rest, argv, argc⟩ := by
  rw [parseLoop, load_append, ok_bind, if_neg fun hc => hc.1 rfl]

/-- The character behind a run in the buffer. -/
theorem load_behind (pre run : List Byte) (c : Byte) (rest : List Byte) :
    load (pre ++ (run ++ c :: rest)) (pre.length + run.length) = .ok c := by
  rw [← List.append_assoc, ← List.length_append]
  exact load_append _ _ _

theorem set_behind (run : List Byte) (c c' : Byte) (rest : List Byte) :
    (run ++ c :: rest).set run.length c' = run ++ c' :: rest := by
  simp

theorem parseLoop_spaces {maxArgs argc : Nat} (h : argc < maxArgs) {spaces : List Byte}
    (hspaces : ∀ c ∈ spaces, dbgIsspace c = true) (fuel : Nat) (pre tail : List Byte)
    (argv : List (Option Nat)) :
    parseLoop maxArgs (fuel + 1) pre.length ⟨pre ++ (spaces ++ 0 :: tail), argv, argc⟩ =
      .ok ⟨pre ++ (spaces ++ 0 :: tail), argv, argc⟩ := by
  cases spaces with
  | nil => exact parseLoop_nul maxArgs fuel pre tail argv argc
  | cons first spaces =>
    have hfirst : first ≠ 0 := by
      intro heq
      have := hspaces first List.mem_cons_self
      rw [heq, isspace_zero] at this
      cases this
    have hload : load (pre ++ (first :: spaces ++ 0 :: tail)) pre.length = .ok first :=
      load_append pre first _
    rw [parseLoop, hload, ok_bind, if_pos ⟨hfirst, h⟩, List.drop_left,
      runOf_append hspaces isspace_zero, ok_bind]
    dsimp only
    rw [load_behind, ok_bind, if_pos rfl]

/-- A round that finds a word. -/
theorem parseLoop_word {maxArgs argc : Nat} (h : argc < maxArgs) {spaces word : List Byte}
    (hspaces : ∀ c ∈ spaces, dbgIsspace c = true) (hword : ∀ c ∈ word, dbgIsspace c = false)
    (hne : word ≠ []) (hnul : 0 ∉ spaces ++ word) {c : Byte} (hc : inWord c = false) (fuel : Nat)
    (pre rest : List Byte) (argv : List (Option Nat)) :
    parseLoop maxArgs (fuel + 1) pre.length ⟨pre ++ (spaces ++ (word ++ c :: rest)), argv, argc⟩ =
      if c ≠ 0 then
        parseLoop maxArgs fuel ((pre ++ (spaces ++ word)).length + 1)
          ⟨pre ++ (spaces ++ (word ++ 0 :: rest)), argv.set argc (some (pre ++ spaces).length),
            argc + 1⟩
      else
        parseLoop maxArgs fuel (pre ++ (spaces ++ word)).length
          ⟨pre ++ (spaces ++ (word ++ c :: rest)), argv.set argc (some (pre ++ spaces).length),
            argc + 1⟩ := by
  rw [List.mem_append, not_or] at hnul
  obtain ⟨letter, letters, rfl⟩ := List.exists_cons_of_ne_nil hne
  have hletter : letter ≠ 0 := fun heq => hnul.2 (heq ▸ List.mem_cons_self)
  -- the loop condition looks at the first character, a blank or the letter
  have hfirst : ∃ first, load (pre ++ (spaces ++ (letter :: letters ++ c :: rest))) pre.length =
      .ok first ∧ first ≠ 0 := by
    cases spaces with
    | nil => exact ⟨letter, load_append pre letter _, hletter⟩
    | cons first spaces =>
      exact ⟨first, load_append pre first _, fun heq => hnul.1 (heq ▸ List.mem_cons_self)⟩
  obtain ⟨first, hload, hfirst⟩ := hfirst
  -- the two inner loops stop at the word and behind it
  have hspacesRun : runOf dbgIsspace (spaces ++ (letter :: letters ++ c :: rest)) =
      .ok spaces.length := runOf_append hspaces (hword letter List.mem_cons_self) _
  have hstart : load (pre ++ (spaces ++ (letter :: letters ++ c :: rest)))
      (pre.length + spaces.length) = .ok letter := load_behind pre spaces letter _
  have hdrop : (pre ++ (spaces ++ (letter :: letters ++ c :: rest))).drop
      (pre.length + spaces.length) = letter :: letters ++ c :: rest := by
    rw [← List.append_assoc, ← List.length_append, List.drop_left]
  have hwordRun := runOf_append (inWord_of_word hword hnul.2) hc rest
  have hstop : load (pre ++ (spaces ++ (letter :: letters ++ c :: rest)))
      (pre.length + spaces.length + (letter :: letters).length) = .ok c := by
    rw [← List.append_assoc, ← List.length_append]
    exact load_behind _ _ c rest
  -- the NUL goes to the character that the second one stopped at
  have hset : (pre ++ (spaces ++ (letter :: letters ++ c :: rest))).set
      (pre.length + spaces.length + (letter :: letters).length) 0 =
      pre ++ (spaces ++ (letter :: letters ++ 0 :: rest)) := by
    have hbehind := set_behind (pre ++ (spaces ++ letter :: letters)) c 0 rest
    rw [List.length_append, List.length_append, ← Nat.add_assoc] at hbehind
    simpa only [List.append_assoc] using hbehind
  have hlength : (pre ++ (spaces ++ letter :: letters)).length =
      pre.length + spaces.length + (letter :: letters).length := by
    rw [← List.append_assoc, List.length_append, List.length_append]
  rw [parseLoop, hload, ok_bind, if_pos ⟨hfirst, h⟩, List.drop_left, hspacesRun, ok_bind]
  dsimp only
  rw [hstart, ok_bind, if_neg hletter, hdrop, hwordRun, ok_bind, hstop, ok_bind, hset, hlength,
    List.length_append]

/-- The pointers that were there, with one more and those behind it. -/
theorem argv_step {argv : List (Option Nat)} {argc : Nat} (h : argc < argv.length) (start : Nat)
    (ptrs : List Nat) :
    (argv.set argc (some start)).take (argc + 1) ++ ptrs.map some ++
        (argv.set argc (some start)).drop (argc + 1 + ptrs.length) =
      argv.take argc ++ (start :: ptrs).map some ++ argv.drop (argc + (start :: ptrs).length) := by
  rw [List.set_eq_take_append_cons_drop, if_pos h]
  have htake : (argv.take argc).length = argc := by
    rw [List.length_take]
    omega
  have hfront : (argv.take argc ++ some start :: argv.drop (argc + 1)).take (argc + 1) =
      argv.take argc ++ [some start] := by
    simp [List.take_append, htake]
  have hback : (argv.take argc ++ some start :: argv.drop (argc + 1)).drop
      (argc + 1 + ptrs.length) = argv.drop (argc + (start :: ptrs).length) := by
    rw [List.drop_append, htake, List.drop_eq_nil_of_le (by omega), List.nil_append,
      show argc + 1 + ptrs.length - argc = ptrs.length + 1 by omega, List.drop_succ_cons,
      List.drop_drop, List.length_cons]
    congr 1
    omega
  rw [hfront, hback, List.map_cons, List.append_assoc, List.append_assoc, List.append_assoc]
  rfl

theorem words_nil : words [] = [] := by
  simp [words]

/-- A word at the front of a line, and the rest of the line split. -/
theorem SplitsInto.cons {pre tail spaces word line mid : List Byte} {c : Byte}
    {argv : List (Option Nat)} {argc room : Nat} {ptrs : List Nat} {result : Except Fault Parsed}
    (h : SplitsInto (pre ++ (spaces ++ word) ++ [0]) tail line
      (argv.set argc (some (pre ++ spaces).length)) (argc + 1) room mid ptrs result)
    (hspaces : ∀ c ∈ spaces, dbgIsspace c = true) (hword : ∀ c ∈ word, dbgIsspace c = false)
    (hne : word ≠ []) (hnul : 0 ∉ word) (hc : dbgIsspace c = true) (hargc : argc < argv.length) :
    SplitsInto pre tail (spaces ++ (word ++ c :: line)) argv argc (room + 1)
      (spaces ++ (word ++ 0 :: mid)) ((pre ++ spaces).length :: ptrs) result := by
  have hbuff : pre ++ (spaces ++ word) ++ [0] ++ (mid ++ 0 :: tail) =
      pre ++ (spaces ++ (word ++ 0 :: mid) ++ 0 :: tail) := by
    simp
  refine ⟨?_, ?_, ?_⟩
  · rw [h.returns, hbuff, argv_step hargc]
    congr 2
    simp only [List.length_cons]
    omega
  · have := h.sameLength
    simp only [List.length_append, List.length_cons]
    omega
  · rw [words_spaces hspaces, words_word_space hword hne hc, List.take_succ_cons]
    have hrest := h.pointers
    rw [hbuff] at hrest
    refine .cons ?_ hrest
    have hpoints := pointsTo_append (pre ++ spaces) hnul (mid ++ 0 :: tail)
    simpa only [List.append_assoc, List.cons_append] using hpoints

/-- No word is looked for, or none is there. -/
theorem SplitsInto.none {pre tail rest : List Byte} {argv : List (Option Nat)} {argc room : Nat}
    (h : (words rest).take room = []) :
    SplitsInto pre tail rest argv argc room rest []
      (.ok ⟨pre ++ (rest ++ 0 :: tail), argv, argc⟩) := by
  refine ⟨?_, rfl, by rw [h]; exact .nil⟩
  simp

/-- A word that the terminator ends. -/
theorem SplitsInto.last {pre tail spaces word : List Byte} {argv : List (Option Nat)}
    {argc room : Nat} (hspaces : ∀ c ∈ spaces, dbgIsspace c = true)
    (hword : ∀ c ∈ word, dbgIsspace c = false) (hne : word ≠ []) (hnul : 0 ∉ word)
    (hargc : argc < argv.length) :
    SplitsInto pre tail (spaces ++ word) argv argc (room + 1) (spaces ++ word)
      [(pre ++ spaces).length]
      (.ok ⟨pre ++ (spaces ++ (word ++ 0 :: tail)), argv.set argc (some (pre ++ spaces).length),
        argc + 1⟩) := by
  refine ⟨?_, rfl, ?_⟩
  · have hstep := argv_step hargc (pre ++ spaces).length []
    rw [List.map_nil, List.append_nil, List.length_nil, Nat.add_zero,
      List.take_append_drop] at hstep
    rw [hstep, List.append_assoc spaces word]
    rfl
  · rw [words_spaces hspaces, words_word hword hne, List.take_of_length_le (by simp)]
    refine .cons ?_ .nil
    have hpoints := pointsTo_append (pre ++ spaces) hnul tail
    simpa only [List.append_assoc] using hpoints

/-- From the front of a line on: it is blank, ends in its only word, or has a word and a line
behind it.  Each round takes a word, so the fuel outlasts the line. -/
theorem parseLoop_splits (maxArgs fuel : Nat) (pre tail rest : List Byte)
    (argv : List (Option Nat)) (argc : Nat) (hnul : 0 ∉ rest) (hfuel : rest.length < fuel)
    (hargv : maxArgs ≤ argv.length) :
    ∃ mid ptrs, SplitsInto pre tail rest argv argc (maxArgs - argc) mid ptrs
        (parseLoop maxArgs fuel pre.length ⟨pre ++ (rest ++ 0 :: tail), argv, argc⟩) ∧
      Cut pre.length rest mid ptrs := by
  induction fuel generalizing pre rest argv argc with
  | zero => omega
  | succ fuel ih =>
    by_cases hroom : argc < maxArgs
    · have hroom' : maxArgs - argc = maxArgs - (argc + 1) + 1 := by omega
      have hargc : argc < argv.length := Nat.lt_of_lt_of_le hroom hargv
      cases front rest with
      | blank hspaces =>
        refine ⟨rest, [], ?_, .done _ _⟩
        rw [parseLoop_spaces hroom hspaces]
        apply SplitsInto.none
        have hwords := words_spaces hspaces []
        rw [List.append_nil] at hwords
        rw [hwords, words_nil, List.take_nil]
      | @last spaces word hspaces hword hne =>
        refine ⟨spaces ++ word, [(pre ++ spaces).length], ?_,
          by rw [List.length_append]; exact .last _ hspaces hword hne⟩
        have hround := parseLoop_word hroom hspaces hword hne hnul inWord_zero fuel pre tail argv
        rw [if_neg (fun hzero => hzero rfl)] at hround
        -- one more round, which stops at the terminator
        have hpos : 0 < (spaces ++ word).length := by
          rw [List.length_append]
          have := List.length_pos_of_ne_nil hne
          omega
        obtain ⟨fuel, rfl⟩ := Nat.exists_eq_succ_of_ne_zero (show fuel ≠ 0 by omega)
        have hend := parseLoop_nul maxArgs fuel (pre ++ (spaces ++ word)) tail
          (argv.set argc (some (pre ++ spaces).length)) (argc + 1)
        have hbuff : pre ++ (spaces ++ word) ++ 0 :: tail =
            pre ++ (spaces ++ (word ++ 0 :: tail)) := by
          simp
        rw [hbuff] at hend
        rw [List.append_assoc, hround, hend, hroom']
        exact .last hspaces hword hne (fun hmem => hnul (List.mem_append_right _ hmem)) hargc
      | @more spaces word hspaces hword hne c hc line =>
        simp only [List.mem_append, List.mem_cons, not_or] at hnul
        obtain ⟨hspaces0, hword0, hc0, hline0⟩ := hnul
        have hround := parseLoop_word hroom hspaces hword hne
          (by rw [List.mem_append, not_or]; exact ⟨hspaces0, hword0⟩)
          (show inWord c = false by simp [inWord, hc]) fuel pre (line ++ 0 :: tail) argv
        rw [if_pos (Ne.symm hc0)] at hround
        -- the rest of the line begins behind the NUL that replaced `c`
        have hline : line.length < fuel := by
          rw [List.length_append, List.length_append, List.length_cons] at hfuel
          omega
        obtain ⟨mid, ptrs, hsplits, hcut⟩ := ih (pre ++ (spaces ++ word) ++ [0]) line
          (argv.set argc (some (pre ++ spaces).length)) (argc + 1)
          hline0 hline (by rw [List.length_set]; exact hargv)
        have hlength : (pre ++ (spaces ++ word) ++ [0]).length =
            (pre ++ (spaces ++ word)).length + 1 := List.length_append
        have hcut' : Cut pre.length (spaces ++ (word ++ c :: line)) (spaces ++ (word ++ 0 :: mid))
            ((pre ++ spaces).length :: ptrs) := by
          rw [hlength, List.length_append, List.length_append, ← Nat.add_assoc] at hcut
          rw [List.length_append]
          exact .more hspaces hword hne hc hcut
        refine ⟨spaces ++ (word ++ 0 :: mid), (pre ++ spaces).length :: ptrs, ?_, hcut'⟩
        have hbuff : pre ++ (spaces ++ (word ++ c :: line) ++ 0 :: tail) =
            pre ++ (spaces ++ (word ++ c :: (line ++ 0 :: tail))) := by
          simp
        have hbuff' : pre ++ (spaces ++ word) ++ [0] ++ (line ++ 0 :: tail) =
            pre ++ (spaces ++ (word ++ 0 :: (line ++ 0 :: tail))) := by
          simp
        rw [hroom', hbuff, hround]
        rw [hbuff', hlength] at hsplits
        exact hsplits.cons hspaces hword hne hword0 hc hargc
    · -- `argv` is full
      refine ⟨rest, [], ?_, .done _ _⟩
      rw [show maxArgs - argc = 0 by omega]
      cases hrest : rest ++ 0 :: tail with
      | nil => simp at hrest
      | cons c more =>
        rw [parseLoop_full hroom, ← hrest]
        exact .none rfl

theorem dbgParsecmd_splits (line : CString) (tail : List Byte) {argv : List (Option Nat)}
    {maxArgs : Nat} (hargv : maxArgs ≤ argv.length) :
    ∃ mid ptrs, SplitsInto [] tail line.chars argv 0 maxArgs mid ptrs
        (dbgParsecmd (line.chars ++ 0 :: tail) argv maxArgs) ∧
      Cut 0 line.chars mid ptrs := by
  have hfuel : line.chars.length < (line.chars ++ 0 :: tail).length + 1 := by
    rw [List.length_append]
    omega
  exact parseLoop_splits maxArgs _ [] tail line.chars argv 0 line.noNul hfuel hargv

/-! ## Word splitting -/

/-- The blank, and the characters from tab to carriage return. -/
def whiteSpace (c : Byte) : Bool := c = chr ' ' ∨ 9 ≤ c.toNat ∧ c.toNat ≤ 13

/-- The maximal runs of characters that are not white space. -/
def runs (line : List Byte) : List (List Byte) := (line.splitOnP whiteSpace).filter (· ≠ [])

theorem isspace_eq_whiteSpace : dbgIsspace = whiteSpace := by
  have hall : ∀ c : Byte, dbgIsspace c = whiteSpace c := by decide +kernel
  exact funext hall

theorem words_eq_runs : words = runs := by
  funext line
  rw [words, runs, isspace_eq_whiteSpace]

/-- Behind the word that `ptrs[j]` points to there was white space at `k`, and now a NUL. -/
def EndsWord (start : Nat) (rest mid : List Byte) (ptrs : List Nat) (k j : Nat) : Prop :=
  ∃ word p c, (words rest)[j]? = some word ∧ ptrs[j]? = some p ∧ start + k = p + word.length ∧
    rest[k]? = some c ∧ dbgIsspace c = true ∧ mid[k]? = some 0

section Cut

variable {start : Nat} {rest mid : List Byte} {ptrs : List Nat}

theorem Cut.pointers_lt (h : Cut start rest mid ptrs) :
    ∀ p ∈ ptrs, start ≤ p ∧ p < start + rest.length := by
  induction h with
  | done start rest => simp
  | last start hspaces hword hne =>
    intro p hp
    rw [List.mem_singleton] at hp
    have hpos := List.length_pos_of_ne_nil hne
    rw [hp, List.length_append]
    omega
  | more hspaces hword hne hc h ih =>
    intro p hp
    have hpos := List.length_pos_of_ne_nil hne
    simp only [List.length_append, List.length_cons]
    cases hp with
    | head => omega
    | tail _ hp =>
      have := ih p hp
      omega

/-- A word in front of the line moves the words behind it by one. -/
theorem EndsWord.behind {spaces word line : List Byte} {c : Byte} {k j : Nat}
    (hspaces : ∀ c ∈ spaces, dbgIsspace c = true) (hword : ∀ c ∈ word, dbgIsspace c = false)
    (hne : word ≠ []) (hc : dbgIsspace c = true)
    (h : EndsWord (start + spaces.length + word.length + 1) line mid ptrs k j) :
    EndsWord start (spaces ++ (word ++ c :: line)) (spaces ++ (word ++ 0 :: mid))
      ((start + spaces.length) :: ptrs) (spaces.length + word.length + 1 + k) (j + 1) := by
  obtain ⟨other, p, c', hother, hp, hk, hc', hspace, hnul⟩ := h
  have hline : ∀ (c : Byte) (behind : List Byte),
      (spaces ++ (word ++ c :: behind))[spaces.length + word.length + 1 + k]? = behind[k]? := by
    intro c behind
    rw [List.getElem?_append_right (by omega), List.getElem?_append_right (by omega),
      show spaces.length + word.length + 1 + k - spaces.length - word.length = k + 1 by omega,
      List.getElem?_cons_succ]
  refine ⟨other, p, c', ?_, hp, by omega, ?_, hspace, ?_⟩
  · rw [words_spaces hspaces, words_word_space hword hne hc]
    exact hother
  · rw [hline, hc']
  · rw [hline, hnul]

theorem Cut.changed (h : Cut start rest mid ptrs) {k : Nat} (hk : mid[k]? ≠ rest[k]?) :
    ∃ j, EndsWord start rest mid ptrs k j := by
  induction h generalizing k with
  | done start rest => exact absurd rfl hk
  | last start hspaces hword hne => exact absurd rfl hk
  | @more start spaces word line mid c ptrs hspaces hword hne hc h ih =>
    by_cases hbefore : k < spaces.length + word.length
    · -- up to the end of the word nothing is replaced
      have hsame : ∀ (c : Byte) (line : List Byte),
          (spaces ++ (word ++ c :: line))[k]? = (spaces ++ word)[k]? := by
        intro c line
        rw [← List.append_assoc, List.getElem?_append_left (by simpa using hbefore)]
      exact absurd (by rw [hsame, hsame]) hk
    · -- right behind it is the NUL, and what comes then is the rest of the line
      obtain ⟨k, rfl⟩ := Nat.exists_eq_add_of_le (Nat.le_of_not_lt hbefore)
      have hat : ∀ (c : Byte) (line : List Byte),
          (spaces ++ (word ++ c :: line))[spaces.length + word.length + k]? = (c :: line)[k]? := by
        intro c line
        rw [List.getElem?_append_right (by omega), List.getElem?_append_right (by omega)]
        congr 1
        omega
      cases k with
      | zero =>
        refine ⟨0, word, start + spaces.length, c, ?_, rfl, by omega, by rw [hat]; rfl, hc,
          by rw [hat]; rfl⟩
        rw [words_spaces hspaces, words_word_space hword hne hc]
        rfl
      | succ k =>
        rw [hat, hat, List.getElem?_cons_succ, List.getElem?_cons_succ] at hk
        obtain ⟨j, hends⟩ := ih hk
        rw [← Nat.add_assoc, Nat.add_right_comm]
        exact ⟨j + 1, hends.behind hspaces hword hne hc⟩

end Cut

/-- What `dbg_parsecmd` returns and leaves for a line in `buff` and room for `maxArgs`
pointers in `argv`. -/
structure ParsesInto (line buff : List Byte) (argv : List (Option Nat)) (maxArgs : Nat)
    (parsed : Parsed) : Prop where
  argc : parsed.argc = min (runs line).length maxArgs
  pointers : ∀ j run, j < parsed.argc → (runs line)[j]? = some run →
    ∃ p, parsed.argv[j]? = some (some p) ∧ p < line.length ∧ PointsTo parsed.buff run p
  sameArgv : parsed.argv.length = argv.length ∧
    ∀ j, parsed.argc ≤ j → parsed.argv[j]? = argv[j]?
  sameLength : parsed.buff.length = buff.length
  changed : ∀ i, parsed.buff[i]? ≠ buff[i]? →
    ∃ j run p c, j < parsed.argc ∧ (runs line)[j]? = some run ∧ parsed.argv[j]? = some (some p) ∧
      i = p + run.length ∧ buff[i]? = some c ∧ whiteSpace c = true ∧ parsed.buff[i]? = some 0

/-- Outside the line nothing changes. -/
theorem changed_in_line {mid rest : List Byte} (hlength : mid.length = rest.length)
    {tail : List Byte} {i : Nat} (h : (mid ++ tail)[i]? ≠ (rest ++ tail)[i]?) :
    i < rest.length ∧ mid[i]? ≠ rest[i]? := by
  by_cases hi : i < rest.length
  · rw [List.getElem?_append_left (by omega), List.getElem?_append_left hi] at h
    exact ⟨hi, h⟩
  · rw [List.getElem?_append_right (by omega), List.getElem?_append_right (by omega),
      hlength] at h
    exact absurd rfl h

theorem dbgParsecmd_parses (line : CString) (tail : List Byte) {argv : List (Option Nat)}
    {maxArgs : Nat} (hargv : maxArgs ≤ argv.length) :
    ∃ parsed, dbgParsecmd (line.chars ++ 0 :: tail) argv maxArgs = .ok parsed ∧
      ParsesInto line.chars (line.chars ++ 0 :: tail) argv maxArgs parsed := by
  obtain ⟨mid, ptrs, hsplits, hcut⟩ := dbgParsecmd_splits line tail hargv
  have hcount := hsplits.pointers.length_eq
  rw [List.length_take, words_eq_runs] at hcount
  have hreturns := hsplits.returns
  simp only [List.nil_append, List.take_zero, Nat.zero_add] at hreturns
  have hptr : ∀ {j p : Nat}, ptrs[j]? = some p →
      (ptrs.map some ++ argv.drop ptrs.length)[j]? = some (some p) := by
    intro j p hp
    have hj : j < ptrs.length := (List.getElem?_eq_some_iff.mp hp).1
    rw [List.getElem?_append_left (by simpa using hj), List.getElem?_map, hp]
    rfl
  refine ⟨_, hreturns, ?_, ?_, ⟨?_, ?_⟩, ?_, ?_⟩
  · rw [Nat.min_comm]
    exact hcount.symm
  · intro j run hj hrun
    dsimp only at hj
    have hp : ptrs[j]? = some ptrs[j] := List.getElem?_eq_getElem hj
    have hin := hcut.pointers_lt ptrs[j] (List.getElem_mem hj)
    -- the words that were taken are the first runs
    have htaken : ((words line.chars).take maxArgs)[j]? = some run := by
      rw [List.getElem?_take_of_lt (by omega), words_eq_runs, hrun]
    obtain ⟨hlt, hget⟩ := List.getElem?_eq_some_iff.mp htaken
    have hpoints := hsplits.pointers.get hlt hj
    simp only [List.get_eq_getElem, hget] at hpoints
    exact ⟨ptrs[j], hptr hp, by omega, hpoints⟩
  · simp
    omega
  · intro j hj
    dsimp only at hj
    rw [List.getElem?_append_right (by simpa using hj), List.getElem?_drop, List.length_map]
    congr 1
    omega
  · simp [hsplits.sameLength]
  · intro i hi
    -- a byte that differs lies in the line
    obtain ⟨hlt, hmid⟩ := changed_in_line hsplits.sameLength hi
    obtain ⟨j, run, p, c, hrun, hp, hplace, hc, hspace, hnul⟩ := hcut.changed hmid
    have hj : j < ptrs.length := (List.getElem?_eq_some_iff.mp hp).1
    refine ⟨j, run, p, c, hj, ?_, hptr hp, by omega, ?_, ?_, ?_⟩
    · rw [← words_eq_runs, hrun]
    · rw [List.getElem?_append_left hlt, hc]
    · rw [← isspace_eq_whiteSpace, hspace]
    · have hlength := hsplits.sameLength
      rw [List.getElem?_append_left (by omega), hnul]

/-- A line with more words than there is room for. -/
theorem dbgParsecmd_parses_three_words :
    1 ≤ ([none, none] : List (Option Nat)).length ∧
      ∃ parsed, dbgParsecmd ([32, 97, 98, 9, 99, 32, 100] ++ 0 :: []) [none, none] 1 = .ok parsed ∧
        ParsesInto [32, 97, 98, 9, 99, 32, 100] ([32, 97, 98, 9, 99, 32, 100] ++ 0 :: [])
          [none, none] 1 parsed :=
  ⟨by decide, dbgParsecmd_parses ⟨[32, 97, 98, 9, 99, 32, 100], by decide⟩ [] (by decide)⟩

end MidnightOS.Debug
