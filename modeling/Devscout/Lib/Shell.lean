/-
# Devscout.Lib.Shell -- reading a command line as a POSIX shell does

A shell reads a line one character at a time. Blanks end a word, a pipe ends a command, and
quotes and backslashes make what they cover part of the word; then they are removed. The
reader here follows that for the lines of which no more needs to be known than their text: at
an unquoted character that starts an expansion, a comment or another operator it gives up, and
so it does at a command whose first word could be an assignment or a reserved word.

What it returns is therefore what any shell makes of the line, aliases apart.
-/

import Devscout.Lib.Text

namespace Devscout.Lib.Shell

inductive Mode where
  | plain
  | escaped
  | single
  | double
  | doubleEscaped
  deriving DecidableEq

/-- The word that is being read, if one was begun, the words of the command before it, and the
commands before that. -/
structure State where
  mode : Mode := .plain
  word : Option Str := none
  command : List Str := []
  commands : List (List Str) := []

namespace State

variable (s : State)

def push (c : Char) : State := { s with word := some (s.word.getD [] ++ [c]) }

/-- A quote begins a word, be it an empty one. -/
def openWord (mode : Mode) : State := { s with mode := mode, word := some (s.word.getD []) }

def endWord : State := { s with word := none, command := s.command ++ s.word.toList }

def endCommand : State :=
  { s with word := none, command := [], commands := s.commands ++ [s.command ++ s.word.toList] }

end State

/-- What starts an expansion, a comment or an operator other than a pipe, or may do so. -/
def SPECIAL : Str := "$`*?[]#~&;<>()\x7b\x7d!\n".toList

def step (s : State) (c : Char) : Option State :=
  if c = '\x00' then none
  else match s.mode with
    | .plain =>
        if c = ' ' ∨ c = '\t' then some s.endWord
        else if c = '|' then some s.endCommand
        else if c = '\\' then some { s with mode := .escaped }
        else if c = '\'' then some (s.openWord .single)
        else if c = '"' then some (s.openWord .double)
        else if SPECIAL.contains c then none
        else some (s.push c)
    | .escaped =>
        -- an escaped line feed joins two lines
        if c = '\n' then some { s with mode := .plain } else some { s.push c with mode := .plain }
    | .single => if c = '\'' then some { s with mode := .plain } else some (s.push c)
    | .double =>
        if c = '"' then some { s with mode := .plain }
        else if c = '\\' then some { s with mode := .doubleEscaped }
        else if c = '$' ∨ c = '`' then none
        else some (s.push c)
    | .doubleEscaped =>
        if c = '\n' then some { s with mode := .double }
        else if "$`\"\\".toList.contains c then some { s.push c with mode := .double }
        else some { (s.push '\\').push c with mode := .double }

/-- The words that mean something else as the first word of a command. -/
def RESERVED : List Str :=
  ["if", "then", "else", "elif", "fi", "do", "done", "case", "esac", "while", "until", "for", "in",
    "function", "select", "time"].map String.toList

/-- A command that starts with the name of what is run. -/
def isRun (command : List Str) : Bool := command.head?.any fun w => !w.contains '=' && !RESERVED.contains w

/-- The commands of a pipeline, each a list of words. -/
def pipeline (line : Str) : Option (List (List Str)) := do
  let s ← line.foldlM step {}
  if s.mode = .plain ∧ s.endCommand.commands.all isRun = true then some s.endCommand.commands else none

example : pipeline "a 'b c' \"d\\\"\"e\\ f | g ''".toList =
    some [["a", "b c", "d\"e f"].map String.toList, ["g".toList, []]] := by decide +kernel

/-! ## Pieces of a line -/

section Pieces

variable {s : State} {text : Str}

/-- A character that stands for itself outside of quotes. -/
def Bare (c : Char) : Prop := c ∉ " \t|\\'\"\x00".toList ∧ c ∉ SPECIAL

theorem step_bare {c : Char} (hs : s.mode = .plain) (hc : Bare c) : step s c = some (s.push c) := by
  obtain ⟨hplain, hspecial⟩ := hc
  rw [show " \t|\\'\"\x00".toList = [' ', '\t', '|', '\\', '\'', '"', '\x00'] from rfl] at hplain
  simp only [List.mem_cons, List.not_mem_nil, or_false, not_or] at hplain
  obtain ⟨hspace, htab, hpipe, hslash, hsingle, hdouble, hnul⟩ := hplain
  have hno : ¬SPECIAL.contains c = true := fun h => hspecial (List.contains_iff_mem.mp h)
  rw [step, if_neg hnul, hs]
  simp only [hspace, htab, hpipe, hslash, hsingle, hdouble, or_self, if_false, if_neg hno]

/-- Bare characters are added to the word. -/
theorem read_bare (hs : s.mode = .plain) (htext : ∀ c ∈ text, Bare c) (hne : text ≠ []) :
    text.foldlM step s = some { s with word := some (s.word.getD [] ++ text) } := by
  induction text generalizing s with
  | nil => exact absurd rfl hne
  | cons c cs ih =>
      rw [List.foldlM_cons, step_bare hs (htext c List.mem_cons_self)]
      by_cases hcs : cs = []
      · subst hcs
        rfl
      · show cs.foldlM step (s.push c) = _
        rw [@ih (s.push c) hs (fun d hd => htext d (List.mem_cons_of_mem c hd)) hcs]
        simp [State.push]

theorem step_space (hs : s.mode = .plain) : step s ' ' = some s.endWord := by
  rw [step, if_neg (by decide), hs]
  rfl

theorem step_pipe (hs : s.mode = .plain) : step s '|' = some s.endCommand := by
  rw [step, if_neg (by decide), hs]
  rfl

theorem step_quote (hs : s.mode = .plain) : step s '\'' = some (s.openWord .single) := by
  rw [step, if_neg (by decide), hs]
  rfl

theorem step_backslash (hs : s.mode = .plain) : step s '\\' = some { s with mode := .escaped } := by
  rw [step, if_neg (by decide), hs]
  rfl

theorem step_escaped (hs : s.mode = .escaped) {c : Char} (hnul : c ≠ '\x00') (hc : c ≠ '\n') :
    step s c = some { s.push c with mode := .plain } := by
  rw [step, if_neg hnul, hs]
  exact if_neg hc

theorem step_unquote (hs : s.mode = .single) : step s '\'' = some { s with mode := .plain } := by
  rw [step, if_neg (by decide), hs]
  rfl

/-- Inside single quotes everything but their end stands for itself. -/
theorem step_single (hs : s.mode = .single) {c : Char} (hnul : c ≠ '\x00') (hc : c ≠ '\'') :
    step s c = some (s.push c) := by
  rw [step, if_neg hnul, hs]
  exact if_neg hc

end Pieces

end Devscout.Lib.Shell
