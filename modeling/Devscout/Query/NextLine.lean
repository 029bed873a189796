/-
# Devscout.Query.NextLine -- the line that is pasted

What an answer suggests is printed as a pipeline of commands, to be pasted into a shell. The
arguments are text of the repository, so each is printed bare only if no shell makes anything
of its characters, and between single quotes otherwise. Read by a shell, the line is the
suggested commands again, whatever the arguments hold.
-/

import Devscout.Lib.Shell

namespace Devscout.Query

open Lib Shell

/-- `is_safe_arg_byte`, of a character: one of more bytes has none that is safe. -/
def isSafeArgByte (c : Char) : Bool := c.isAlphanum || "_@%+=:,./-".toList.contains c

/-- What `quote_arg` writes for one character between the quotes. -/
def quoteChar (c : Char) : Str := if c = '\'' then "'\\''".toList else [c]

def quoteArg (arg : Str) : Str :=
  if arg ≠ [] ∧ arg.all isSafeArgByte then arg else '\'' :: (arg.flatMap quoteChar ++ ['\''])

def PROGRAM : Str := "devscout".toList

/-- One command of the line. -/
def commandText (argv : List Str) : Str := argv.foldl (fun command arg => command ++ ' ' :: quoteArg arg) PROGRAM

def nextLine (candidates : List (List Str)) : Option Str :=
  if candidates = [] then none
  else some ("next: ".toList ++ List.intercalate " | ".toList (candidates.map commandText))

/-! ## Arguments -/

section Arguments

variable {s : State} {arg : Str} {argv : List Str}

theorem bare_of_safe {c : Char} (h : isSafeArgByte c = true) : Bare c := by
  have hno : ∀ d ∈ " \t|\\'\"\x00".toList ++ SPECIAL, isSafeArgByte d = false :=
    forall_chars (by decide +kernel)
  have hc : c ∉ " \t|\\'\"\x00".toList ++ SPECIAL := fun hmem => by
    rw [hno c hmem] at h
    cases h
  exact ⟨fun hmem => hc (List.mem_append_left _ hmem), fun hmem => hc (List.mem_append_right _ hmem)⟩

/-- One character of a quoted argument is added to the word. -/
theorem read_quoteChar (hs : s.mode = .single) (hword : s.word.isSome) {c : Char} (hnul : c ≠ '\x00') :
    (quoteChar c).foldlM step s = some (s.push c) := by
  rw [quoteChar]
  split
  · -- the quote is closed, escaped and opened again
    rename_i hc
    subst hc
    obtain ⟨word, hword⟩ := Option.isSome_iff_exists.mp hword
    obtain ⟨mode, _, command, commands⟩ := s
    obtain rfl : mode = .single := hs
    obtain rfl : _ = some word := hword
    rfl
  · rename_i hc
    show (step s c).bind _ = _
    rw [step_single hs hnul hc]
    rfl

/-- Whatever is quoted is added to the word as it is. -/
theorem read_quoted (hs : s.mode = .single) (hword : s.word.isSome) (hnul : '\x00' ∉ arg) :
    (arg.flatMap quoteChar).foldlM step s = some { s with word := some (s.word.getD [] ++ arg) } := by
  induction arg generalizing s with
  | nil =>
      obtain ⟨word, hword⟩ := Option.isSome_iff_exists.mp hword
      rw [hword, Option.getD_some, List.append_nil, ← hword]
      rfl
  | cons c cs ih =>
      have hc : c ≠ '\x00' := fun h => hnul (by rw [h]; exact List.mem_cons_self)
      have hcs : '\x00' ∉ cs := fun h => hnul (List.mem_cons_of_mem c h)
      rw [List.flatMap_cons, List.foldlM_append, read_quoteChar hs hword hc]
      show (cs.flatMap quoteChar).foldlM step (s.push c) = _
      rw [@ih (s.push c) hs rfl hcs]
      simp [State.push]

/-- **One argument** is read as one word. -/
theorem read_quoteArg (hs : s.mode = .plain) (hword : s.word = none) (hnul : '\x00' ∉ arg) :
    (quoteArg arg).foldlM step s = some { s with word := some arg } := by
  rw [quoteArg]
  split
  · rename_i h
    rw [read_bare hs (fun c hc => bare_of_safe (List.all_eq_true.mp h.2 c hc)) h.1, hword]
    rfl
  · rw [List.foldlM_cons, step_quote hs]
    show (arg.flatMap quoteChar ++ ['\'']).foldlM step (s.openWord .single) = _
    rw [List.foldlM_append, @read_quoted (s.openWord .single) arg rfl rfl hnul]
    show (step { s.openWord .single with word := some _ } '\'').bind _ = _
    rw [step_unquote rfl]
    obtain ⟨mode, word, command, commands⟩ := s
    obtain rfl : mode = .plain := hs
    obtain rfl : word = none := hword
    rfl

end Arguments

/-! ## Commands -/

section Commands

variable {s : State} {argv : List Str}

theorem commandText_eq (argv : List Str) :
    commandText argv = PROGRAM ++ argv.flatMap fun arg => ' ' :: quoteArg arg := by
  have hgo : ∀ text : Str, argv.foldl (fun command arg => command ++ ' ' :: quoteArg arg) text =
      text ++ argv.flatMap fun arg => ' ' :: quoteArg arg := by
    induction argv with
    | nil => exact fun text => (List.append_nil text).symm
    | cons arg argv ih =>
        intro text
        rw [List.foldl_cons, ih, List.flatMap_cons, List.append_assoc]
  exact hgo PROGRAM

/-- The arguments are read one after the other, from behind the word before them. -/
theorem read_args {word : Str} (hs : s.mode = .plain) (hword : s.word = some word)
    (hnul : ∀ arg ∈ argv, '\x00' ∉ arg) :
    ∃ s', (argv.flatMap fun arg => ' ' :: quoteArg arg).foldlM step s = some s' ∧ s'.mode = .plain ∧
      s'.commands = s.commands ∧ s'.command ++ s'.word.toList = s.command ++ word :: argv := by
  induction argv generalizing s word with
  | nil => exact ⟨s, rfl, hs, rfl, by rw [hword]; rfl⟩
  | cons arg argv ih =>
      have harg : (quoteArg arg).foldlM step s.endWord = some { s.endWord with word := some arg } :=
        read_quoteArg hs rfl (hnul arg List.mem_cons_self)
      obtain ⟨s', hread, hmode, hcommands, hcommand⟩ :=
        @ih { s.endWord with word := some arg } arg hs rfl fun a ha => hnul a (List.mem_cons_of_mem arg ha)
      refine ⟨s', ?_, hmode, hcommands, ?_⟩
      · rw [List.flatMap_cons, List.cons_append, List.foldlM_cons, step_space hs]
        show (quoteArg arg ++ _).foldlM step s.endWord = _
        rw [List.foldlM_append, harg]
        exact hread
      · rw [hcommand]
        show (s.command ++ s.word.toList) ++ arg :: argv = _
        rw [hword, List.append_assoc]
        rfl

/-- One command is read as the program and its arguments. -/
theorem read_commandText (hs : s.mode = .plain) (hword : s.word = none) (hcommand : s.command = [])
    (hnul : ∀ arg ∈ argv, '\x00' ∉ arg) :
    ∃ s', (commandText argv).foldlM step s = some s' ∧ s'.mode = .plain ∧ s'.commands = s.commands ∧
      s'.command ++ s'.word.toList = PROGRAM :: argv := by
  have hsafe : ∀ c ∈ PROGRAM, isSafeArgByte c = true := forall_chars (by decide +kernel)
  have hprogram : PROGRAM.foldlM step s = some { s with word := some PROGRAM } := by
    rw [read_bare hs (fun c hc => bare_of_safe (hsafe c hc)) (by decide), hword]
    rfl
  obtain ⟨s', hread, hmode, hcommands, hall⟩ :=
    @read_args { s with word := some PROGRAM } argv PROGRAM hs rfl hnul
  refine ⟨s', ?_, hmode, hcommands, ?_⟩
  · rw [commandText_eq, List.foldlM_append, hprogram]
    exact hread
  · rw [hall]
    show s.command ++ PROGRAM :: argv = _
    rw [hcommand]
    rfl

/-- The commands are read one after the other. -/
theorem read_pipeline {candidates : List (List Str)} (hne : candidates ≠ []) (hs : s.mode = .plain)
    (hword : s.word = none) (hcommand : s.command = [])
    (hnul : ∀ argv ∈ candidates, ∀ arg ∈ argv, '\x00' ∉ arg) :
    ∃ s', (List.intercalate " | ".toList (candidates.map commandText)).foldlM step s = some s' ∧
      s'.mode = .plain ∧ s'.endCommand.commands = s.commands ++ candidates.map (PROGRAM :: ·) := by
  induction candidates generalizing s with
  | nil => exact absurd rfl hne
  | cons argv candidates ih =>
      obtain ⟨t, hread, hmode, hcommands, hall⟩ :=
        @read_commandText s argv hs hword hcommand (hnul argv List.mem_cons_self)
      by_cases hlast : candidates = []
      · subst hlast
        refine ⟨t, ?_, hmode, ?_⟩
        · rw [List.map_singleton, List.intercalate_singleton]
          exact hread
        · show t.commands ++ [t.command ++ t.word.toList] = _
          rw [hcommands, hall]
          rfl
      · -- the pipe ends the command; the blanks around it end no word
        have hpipe : " | ".toList.foldlM step t = some t.endCommand := by
          show (step t ' ').bind _ = _
          rw [step_space hmode]
          show (step t.endWord '|').bind _ = _
          rw [@step_pipe t.endWord hmode]
          show (step t.endWord.endCommand ' ').bind _ = _
          rw [@step_space t.endWord.endCommand hmode]
          show some t.endWord.endCommand.endWord = _
          simp [State.endWord, State.endCommand]
        obtain ⟨s', hrest, hmode', hcommands'⟩ := @ih t.endCommand hlast hmode rfl rfl
          fun a ha => hnul a (List.mem_cons_of_mem argv ha)
        refine ⟨s', ?_, hmode', ?_⟩
        · have hmap : candidates.map commandText ≠ [] := fun h => hlast (List.map_eq_nil_iff.mp h)
          rw [List.map_cons, List.intercalate_cons_of_ne_nil hmap, List.append_assoc, List.foldlM_append, hread]
          show (" | ".toList ++ _).foldlM step t = _
          rw [List.foldlM_append, hpipe]
          exact hrest
        · rw [hcommands']
          show (t.commands ++ [t.command ++ t.word.toList]) ++ _ = _
          rw [hcommands, hall, List.append_assoc]
          rfl

end Commands

/-- **The line means what was suggested**: a shell that reads it runs the suggested commands, each
argument as it is. -/
theorem pipeline_nextLine (candidates : List (List Str)) (hne : candidates ≠ [])
    (hnul : ∀ argv ∈ candidates, ∀ arg ∈ argv, '\x00' ∉ arg) :
    ∃ line, nextLine candidates = some ("next: ".toList ++ line) ∧
      pipeline line = some (candidates.map (PROGRAM :: ·)) := by
  obtain ⟨s, hread, hmode, hcommands⟩ := @read_pipeline {} candidates hne rfl rfl rfl hnul
  have hrun : (candidates.map (PROGRAM :: ·)).all isRun = true := by
    rw [List.all_map, List.all_eq_true]
    exact fun argv _ => (by decide +kernel : isRun [PROGRAM] = true)
  refine ⟨_, if_neg hne, ?_⟩
  rw [pipeline, hread]
  show (if s.mode = .plain ∧ s.endCommand.commands.all isRun = true then _ else _) = _
  rw [hcommands, List.nil_append, if_pos ⟨hmode, hrun⟩]

/-- An argument with a quote, a pipe, a line feed and an expansion in it, and an empty one. -/
theorem pipeline_quoted :
    ∃ line, nextLine [["refs".toList, "it's | $(a)\n".toList], ["find".toList, []]] =
        some ("next: ".toList ++ line) ∧
      pipeline line = some [[PROGRAM, "refs".toList, "it's | $(a)\n".toList], [PROGRAM, "find".toList, []]] :=
  pipeline_nextLine [["refs".toList, "it's | $(a)\n".toList], ["find".toList, []]] (by decide) (by decide +kernel)

end Devscout.Query
