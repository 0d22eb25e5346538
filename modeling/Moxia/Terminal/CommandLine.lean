import Mathlib.Data.List.DropRight
import Mathlib.Data.Vector.Basic

/-!
# Command lines (`ExecuteCommand` in `terminal.cpp`)

`ExecuteCommand` looks for the first space, the first `>` and the first `|` of its line before it
cuts the line at them. The space it finds ends the command word only if it comes before the other
two: a line that has its first space behind them is cut in the middle of what the subtask or the
redirect gets (`wired_iff`).
-/

namespace Moxia.Terminal

def sp : UInt8 := 0x20
def bar : UInt8 := 0x7c
def gt : UInt8 := 0x3e

/-- `isspace` of the C locale. -/
def isspace (c : UInt8) : Bool := c = 0x20 || (0x09 ≤ c && c ≤ 0x0d)

/-- The C string at offset `p` of a buffer, whose terminator lies behind the list. -/
def cstr (line : List UInt8) (p : Nat) : List UInt8 := (line.drop p).takeWhile (· ≠ 0)

def strchr (line : List UInt8) (c : UInt8) : Option Nat := (cstr line 0).findIdx? (· = c)

/-- `while (isspace(*p)) ++p;` -/
def skipSpace (line : List UInt8) (p : Nat) : Nat := p + ((line.drop p).takeWhile isspace).length

/-- `if (p) *p = 0;` -/
def cut (line : List UInt8) : Option Nat → List UInt8
  | none => line
  | some p => line.set p 0

@[simp] theorem cut_none (line : List UInt8) : cut line none = line := rfl

variable {α : Type}

/-- What a descriptor of the started command or subtask is: one `ExecuteCommand` was given, the
pipe, or the file that a path leads to or is created as. -/
inductive Descriptor (α : Type)
  | given (a : α)
  | pipe
  | file (path : List UInt8)
deriving DecidableEq

/-- `struct TerminalDescriptor` -/
structure TerminalDescriptor (α : Type) where
  commandLine : List UInt8
  files : Vector (Descriptor α) 3
deriving DecidableEq

/-- What `ExecuteCommand` has set up when it comes to compare `cmd`. -/
structure Setup (α : Type) where
  cmd : List UInt8
  arg : Option (List UInt8)
  subtask : Option (TerminalDescriptor α)
  files : Vector (Descriptor α) 3
deriving DecidableEq

/-! Standard input, output and error are `files[0]`, `files[1]` and `files[2]`. -/

theorem stdin_lt : 0 < 3 := by decide
theorem stdout_lt : 1 < 3 := by decide
theorem stderr_lt : 2 < 3 := by decide

/-- `ExecuteCommand` up to the first `strcmp`, the redirect file having been opened. -/
def executeCommand (line : List UInt8) (files : Vector α 3) : Setup α :=
  let files := files.map .given
  let arg := strchr line sp
  let redirChar := strchr line gt
  let pipeChar := strchr line bar
  let line := cut line arg
  let line := cut line pipeChar
  let subtask := pipeChar.map fun p =>
    ⟨cstr line (skipSpace line (p + 1)),
      #v[.pipe, getElem files 1 stdout_lt, getElem files 2 stderr_lt]⟩
  let files := if pipeChar.isSome then files.set 1 .pipe stdout_lt else files
  let line := cut line redirChar
  let redirDest := redirChar.map fun p => cstr line (skipSpace line (p + 1))
  let files := match redirDest with
    | some dest => files.set 1 (.file dest) stdout_lt
    | none => files
  { cmd := cstr line 0, arg := arg.map fun p => cstr line (p + 1), subtask := subtask,
    files := files }

/-! ## The lines of the grammar -/

def spaces (n : Nat) : List UInt8 := List.replicate n sp

/-- Neither a separator nor the end of the string. -/
def Plain (c : UInt8) : Prop := c ≠ bar ∧ c ≠ gt ∧ c ≠ 0

/-- A command word and its argument text, with the spaces behind each. -/
structure Segment where
  word : List UInt8
  gap : Nat
  arg : List UInt8
  trail : Nat
  word_ne : word ≠ []
  word_plain : ∀ c ∈ word, Plain c ∧ isspace c = false
  arg_plain : ∀ c ∈ arg, Plain c
  arg_trim : arg.head? ≠ some sp ∧ arg.getLast? ≠ some sp
  gap_pos : arg ≠ [] → 0 < gap

def Segment.text (s : Segment) : List UInt8 := s.word ++ spaces s.gap ++ s.arg ++ spaces s.trail

structure Redirect where
  gap : Nat
  path : List UInt8
  path_ne : path ≠ []
  path_plain : ∀ c ∈ path, Plain c
  path_head : ∀ c ∈ path.head?, isspace c = false

def Redirect.text (r : Redirect) : List UInt8 := gt :: (spaces r.gap ++ r.path)

inductive CommandLine
  | last (s : Segment) (redirect : Option Redirect)
  | pipe (s : Segment) (gap : Nat) (rest : CommandLine)

namespace CommandLine

def first : CommandLine → Segment
  | last s _ | pipe s _ _ => s

/-- What follows the first segment. -/
def tail : CommandLine → List UInt8
  | last _ none => []
  | last _ (some r) => r.text
  | pipe _ gap rest => bar :: (spaces gap ++ (rest.first.text ++ rest.tail))

def text (line : CommandLine) : List UInt8 := line.first.text ++ line.tail

end CommandLine

/-- A text without the spaces at its ends. -/
def trim (s : List UInt8) : List UInt8 := (s.dropWhile (· = sp)).rdropWhile (· = sp)

/-- The command runs with the word and the argument text of the segment. -/
def Setup.Runs (w : Setup α) (s : Segment) : Prop := w.cmd = s.word ∧ trim (w.arg.getD []) = s.arg

/-- Word, argument text, subtask and files are those that the line says. -/
def Wired (files : Vector α 3) (w : Setup α) : CommandLine → Prop
  | .last s none => w.Runs s ∧ w.subtask = none ∧ w.files = files.map .given
  | .last s (some r) =>
      w.Runs s ∧ w.subtask = none ∧ w.files = (files.map .given).set 1 (.file r.path) stdout_lt
  | .pipe s _ rest => w.Runs s ∧
      w.subtask = some ⟨rest.text, (files.map .given).set 0 .pipe stdin_lt⟩ ∧
      w.files = (files.map .given).set 1 .pipe stdout_lt

/-- The line has no redirect behind a pipe, and its first space, if it has one, is the first
segment's. -/
def CommandLine.FirstSpaceFirst (line : CommandLine) : Prop :=
  (bar ∈ line.text → gt ∉ line.text) ∧ (sp ∈ line.text → sp ∈ line.first.text)

/-! ## The scans and the cuts -/

theorem cstr_append (pre : List UInt8) {body r : List UInt8} (hbody : 0 ∉ body)
    (hr : r.head?.getD 0 = 0) :
    cstr (pre ++ (body ++ r)) pre.length = body := by
  have hall : ∀ c ∈ body, decide (c ≠ 0) = true := fun c hc => decide_eq_true fun h0 =>
    hbody (h0 ▸ hc)
  have hnil : r.takeWhile (· ≠ 0) = [] := by
    cases r with
    | nil => rfl
    | cons c r =>
      obtain rfl : c = 0 := hr
      rfl
  rw [cstr, List.drop_left, List.takeWhile_append_of_pos hall, hnil, List.append_nil]

theorem cstr_zero {body r : List UInt8} (hbody : 0 ∉ body) (hr : r.head?.getD 0 = 0) :
    cstr (body ++ r) 0 = body :=
  cstr_append [] hbody hr

theorem cstr_succ {pre body r : List UInt8} {c : UInt8} (hbody : 0 ∉ body)
    (hr : r.head?.getD 0 = 0) :
    cstr (pre ++ c :: (body ++ r)) (pre.length + 1) = body := by
  have := cstr_append (pre ++ [c]) hbody hr
  rwa [List.append_assoc, List.singleton_append, List.length_append, List.length_singleton] at this

theorem strchr_append {s r : List UInt8} {c : UInt8} (hs : 0 ∉ s ∧ 0 ∉ r) (hmem : c ∉ s)
    (hc : c ≠ 0) :
    strchr (s ++ c :: r) c = some s.length := by
  have hno : 0 ∉ s ++ c :: r := by simp [hs, hc.symm]
  have hidx : s.findIdx? (· = c) = none := by
    rw [List.findIdx?_eq_none_iff]
    exact fun x hx => decide_eq_false fun h => hmem (h ▸ hx)
  have hcstr : cstr (s ++ c :: r) 0 = s ++ c :: r := by simpa using cstr_zero (r := []) hno rfl
  rw [strchr, hcstr, List.findIdx?_append, hidx]
  simp [List.findIdx?_cons]

theorem strchr_of_not_mem {s : List UInt8} {c : UInt8} (h0 : 0 ∉ s)
    (hmem : c ∉ s) : strchr s c = none := by
  have hcstr : cstr s 0 = s := by simpa using cstr_zero (r := []) h0 rfl
  rw [strchr, hcstr, List.findIdx?_eq_none_iff]
  exact fun x hx => decide_eq_false fun h => hmem (h ▸ hx)

theorem cut_append (pre r : List UInt8) (c : UInt8) :
    cut (pre ++ c :: r) (some pre.length) = pre ++ 0 :: r := by
  rw [cut, List.set_append_right _ _ (Nat.le_refl _), Nat.sub_self, List.set_cons_zero]

theorem skipSpace_append {pre body : List UInt8} {c : UInt8} (n : Nat)
    (hbody : ∀ x ∈ body.head?, isspace x = false) :
    skipSpace (pre ++ c :: (spaces n ++ body)) (pre.length + 1) =
      (pre ++ c :: spaces n).length := by
  have hall : ∀ x ∈ spaces n, isspace x = true := fun x hx => by
    rw [List.eq_of_mem_replicate hx]
    rfl
  have hnil : body.takeWhile isspace = [] := by
    cases body with
    | nil => rfl
    | cons x body => rw [List.takeWhile_cons_of_neg]; simp [hbody x rfl]
  have hdrop : (pre ++ c :: (spaces n ++ body)).drop (pre.length + 1) = spaces n ++ body := by
    rw [← List.drop_drop, List.drop_left, List.drop_one, List.tail_cons]
  rw [skipSpace, hdrop, List.takeWhile_append_of_pos hall, hnil]
  simp only [List.append_nil, List.length_append, List.length_cons]
  omega

theorem cstr_skipSpace {pre body : List UInt8} {c : UInt8} (n : Nat) (h0 : 0 ∉ body)
    (hbody : ∀ x ∈ body.head?, isspace x = false) :
    cstr (pre ++ c :: (spaces n ++ body))
      (skipSpace (pre ++ c :: (spaces n ++ body)) (pre.length + 1)) = body := by
  have := cstr_append (pre ++ c :: spaces n) (r := []) h0 rfl
  rwa [List.append_nil, List.append_assoc, List.cons_append, ← skipSpace_append n hbody] at this

/-- Where the line is cut behind the separator, the string ends there. -/
theorem cstr_skipSpace_le (pre a b : List UInt8) (c : UInt8) :
    (cstr (pre ++ c :: (a ++ 0 :: b))
      (skipSpace (pre ++ c :: (a ++ 0 :: b)) (pre.length + 1))).length ≤
      a.length := by
  have hdrop : (pre ++ c :: (a ++ 0 :: b)).drop (pre.length + 1) = a ++ 0 :: b := by
    rw [← List.drop_drop, List.drop_left, List.drop_one, List.tail_cons]
  rw [cstr, skipSpace, ← List.drop_drop, hdrop, List.takeWhile_append]
  split
  · simp [isspace]
  · have hle := (List.takeWhile_prefix isspace (l := a)).length_le
    rw [List.drop_append_of_le_length hle]
    refine le_trans (b := (a.drop (a.takeWhile isspace).length).length) ?_
      (by rw [List.length_drop]; omega)
    rw [List.takeWhile_append]
    split
    · simp
    · exact (List.takeWhile_prefix _).length_le

/-! ## What the line is made of -/

theorem not_mem_spaces (n : Nat) : bar ∉ spaces n ∧ gt ∉ spaces n ∧ 0 ∉ spaces n := by
  refine ⟨fun h => ?_, fun h => ?_, fun h => ?_⟩ <;>
    exact absurd (List.eq_of_mem_replicate h) (by decide)

theorem not_mem_of_plain {s : List UInt8} (h : ∀ c ∈ s, Plain c) : bar ∉ s ∧ gt ∉ s ∧ 0 ∉ s :=
  ⟨fun hmem => (h bar hmem).1 rfl, fun hmem => (h gt hmem).2.1 rfl, fun hmem => (h 0 hmem).2.2 rfl⟩

theorem Segment.text_plain (s : Segment) : ∀ c ∈ s.text, Plain c := by
  intro c hc
  have hsp : Plain sp := ⟨by decide, by decide, by decide⟩
  simp only [Segment.text, List.mem_append] at hc
  rcases hc with ((hc | hc) | hc) | hc
  · exact (s.word_plain c hc).1
  · rwa [List.eq_of_mem_replicate hc]
  · exact s.arg_plain c hc
  · rwa [List.eq_of_mem_replicate hc]

theorem Segment.sp_not_mem_word (s : Segment) : sp ∉ s.word := by
  intro h
  have := (s.word_plain sp h).2
  cases this

theorem dropWhile_spaces {t : List UInt8} (n : Nat) (h : t.head? ≠ some sp) :
    (spaces n ++ t).dropWhile (· = sp) = t := by
  have hall : ∀ c ∈ spaces n, decide (c = sp) = true :=
    fun c hc => decide_eq_true (List.eq_of_mem_replicate hc)
  rw [List.dropWhile_append_of_pos hall]
  cases t with
  | nil => rfl
  | cons c t => exact List.dropWhile_cons_of_neg (by simpa using h)

theorem trim_spaces {arg : List UInt8} (n m : Nat)
    (h : arg.head? ≠ some sp ∧ arg.getLast? ≠ some sp) :
    trim (spaces n ++ (arg ++ spaces m)) = arg := by
  obtain ⟨hhead, hlast⟩ := h
  by_cases harg : arg = []
  · have hsum : spaces n ++ ([] ++ spaces m) = spaces (n + m) ++ [] := by simp [spaces]
    rw [harg, trim, hsum, dropWhile_spaces _ (by simp)]
    rfl
  · have hhead' : (arg ++ spaces m).head? ≠ some sp := by rwa [List.head?_append_of_ne_nil _ harg]
    have hrev : (spaces m).reverse = spaces m := List.reverse_replicate
    have hlast' : arg.reverse.head? ≠ some sp := by rwa [List.head?_reverse]
    rw [trim, dropWhile_spaces n hhead', List.rdropWhile, List.reverse_append, hrev,
      dropWhile_spaces m hlast',
      List.reverse_reverse]

/-! ## What each side gets -/

/-- The line up to its first separator is `s`, and `s0` when the first space of the line has been
cut. -/
structure Opens (s s0 r word : List UInt8) (arg : Option (List UInt8)) : Prop where
  length_eq : s0.length = s.length
  cut_eq : cut (s ++ r) (strchr (s ++ r) sp) = s0 ++ r
  cmd_eq : ∀ r', r'.head?.getD 0 = 0 → cstr (s0 ++ r') 0 = word
  arg_eq : ∀ r', r'.head?.getD 0 = 0 →
    (strchr (s ++ r) sp).map (fun p => cstr (s0 ++ r') (p + 1)) = arg

theorem opens_space {word s r : List UInt8} (hword : 0 ∉ word ∧ sp ∉ word) (hs : 0 ∉ s)
    (hr : 0 ∉ r) :
    Opens (word ++ sp :: s) (word ++ 0 :: s) r word (some s) := by
  have hpos : strchr (word ++ sp :: s ++ r) sp = some word.length := by
    rw [List.append_assoc, List.cons_append]
    exact strchr_append ⟨hword.1, by simp [hs, hr]⟩ hword.2 (by decide)
  refine ⟨by simp, ?_, fun r' _ => ?_, fun r' hr' => ?_⟩
  · rw [hpos, List.append_assoc, List.cons_append, cut_append, List.append_assoc, List.cons_append]
  · rw [List.append_assoc]
    exact cstr_zero hword.1 rfl
  · rw [hpos, List.append_assoc, List.cons_append]
    exact congrArg some (cstr_succ hs hr')

theorem opens_word {word r : List UInt8} (hword : 0 ∉ word ∧ sp ∉ word) (hr : 0 ∉ r ∧ sp ∉ r) :
    Opens word word r word none := by
  have hpos : strchr (word ++ r) sp = none :=
    strchr_of_not_mem (by simp [hword, hr]) (by simp [hword, hr])
  refine ⟨rfl, by rw [hpos]; rfl, fun r' hr' => cstr_zero hword.1 hr', fun r' _ => by
    rw [hpos]; rfl⟩

variable {s s0 r word body : List UInt8} {arg : Option (List UInt8)} (files : Vector α 3)

theorem executeCommand_last (h : Opens s s0 [] word arg) (hs : bar ∉ s ∧ gt ∉ s ∧ 0 ∉ s) :
    executeCommand s files = ⟨word, arg, none, files.map .given⟩ := by
  have hbar : strchr s bar = none := strchr_of_not_mem hs.2.2 hs.1
  have hgt : strchr s gt = none := strchr_of_not_mem hs.2.2 hs.2.1
  have hcut := h.cut_eq
  have hcmd := h.cmd_eq [] rfl
  have harg := h.arg_eq [] rfl
  simp only [List.append_nil] at hcut hcmd harg
  simp [executeCommand, hbar, hgt, hcut, hcmd, harg]

theorem executeCommand_redirect {n : Nat} (h : Opens s s0 (gt :: (spaces n ++ body)) word arg)
    (hs : bar ∉ s ∧ gt ∉ s ∧ 0 ∉ s) (hbody : bar ∉ body ∧ gt ∉ body ∧ 0 ∉ body)
    (hhead : ∀ c ∈ body.head?, isspace c = false) :
    executeCommand (s ++ gt :: (spaces n ++ body)) files =
      ⟨word, arg, none, (files.map .given).set 1 (.file body) stdout_lt⟩ := by
  have hsp := not_mem_spaces n
  have h0 : 0 ∉ spaces n ++ body := by simp [hsp, hbody]
  have hgt : strchr (s ++ gt :: (spaces n ++ body)) gt = some s0.length := by
    rw [h.length_eq, strchr_append ⟨hs.2.2, h0⟩ hs.2.1 (by decide)]
  have hbar : strchr (s ++ gt :: (spaces n ++ body)) bar = none := by
    have hne : bar ≠ gt ∧ (0 : UInt8) ≠ gt := by decide
    exact strchr_of_not_mem (by simp [hs, hsp, hbody, hne]) (by simp [hs, hsp, hbody, hne])
  have hcmd := h.cmd_eq (0 :: (spaces n ++ body)) rfl
  have harg := h.arg_eq (0 :: (spaces n ++ body)) rfl
  have hdest : cstr (s0 ++ 0 :: (spaces n ++ body))
      (skipSpace (s0 ++ 0 :: (spaces n ++ body)) (s0.length + 1)) =
      body := cstr_skipSpace n hbody.2.2 hhead
  simp [executeCommand, hbar, hgt, h.cut_eq, cut_append, hcmd, harg, hdest]

theorem executeCommand_pipe {n : Nat} (h : Opens s s0 (bar :: (spaces n ++ body)) word arg)
    (hs : bar ∉ s ∧ gt ∉ s ∧ 0 ∉ s) (hbody : 0 ∉ body ∧ gt ∉ body)
    (hhead : ∀ c ∈ body.head?, isspace c = false) :
    executeCommand (s ++ bar :: (spaces n ++ body)) files =
      ⟨word, arg, some ⟨body, (files.map .given).set 0 .pipe stdin_lt⟩,
        (files.map .given).set 1 .pipe stdout_lt⟩ := by
  have hsp := not_mem_spaces n
  have h0 : 0 ∉ spaces n ++ body := by simp [hsp, hbody]
  have hbar : strchr (s ++ bar :: (spaces n ++ body)) bar = some s0.length := by
    rw [h.length_eq, strchr_append ⟨hs.2.2, h0⟩ hs.1 (by decide)]
  have hgt : strchr (s ++ bar :: (spaces n ++ body)) gt = none := by
    have hne : gt ≠ bar ∧ (0 : UInt8) ≠ bar := by decide
    exact strchr_of_not_mem (by simp [hs, hsp, hbody, hne]) (by simp [hs, hsp, hbody, hne])
  have hcmd := h.cmd_eq (0 :: (spaces n ++ body)) rfl
  have harg := h.arg_eq (0 :: (spaces n ++ body)) rfl
  have hsub : cstr (s0 ++ 0 :: (spaces n ++ body))
      (skipSpace (s0 ++ 0 :: (spaces n ++ body)) (s0.length + 1)) =
      body := cstr_skipSpace n hbody.1 hhead
  have hfiles : (files.map .given).set 0 .pipe stdin_lt = #v[Descriptor.pipe, .given files[1],
    .given files[2]] := by
    ext i hi
    match i, hi with
    | 0, _ | 1, _ | 2, _ => simp
  simp [executeCommand, hbar, hgt, h.cut_eq, cut_append, hcmd, harg, hsub, hfiles]

/-! ## Lines of the grammar -/

theorem Segment.text_cases (s : Segment) :
    (s.text = s.word ∧ s.arg = []) ∨ ∃ t, s.text = s.word ++ sp :: t ∧ trim t = s.arg := by
  have hgap := s.gap_pos
  rw [Segment.text]
  rcases hg : s.gap with _ | gap
  · have harg : s.arg = [] := by
      by_contra hne
      have := hgap hne
      omega
    rw [harg]
    rcases s.trail with _ | trail
    · exact .inl ⟨by simp [spaces], rfl⟩
    · exact .inr ⟨spaces 0 ++ ([] ++ spaces trail), by simp [spaces, List.replicate_succ],
        trim_spaces 0 trail (by simp)⟩
  · exact .inr ⟨spaces gap ++ (s.arg ++ spaces s.trail), by simp [spaces, List.replicate_succ],
      trim_spaces gap s.trail s.arg_trim⟩

theorem Segment.text_head (s : Segment) : ∃ c t, s.text = c :: t ∧ isspace c = false := by
  obtain ⟨c, w, hw⟩ := List.exists_cons_of_ne_nil s.word_ne
  refine ⟨c, w ++ (spaces s.gap ++ (s.arg ++ spaces s.trail)), by simp [Segment.text, hw], ?_⟩
  exact (s.word_plain c (by simp [hw])).2

/-- The space that is found first is the segment's, so the word and the argument text are. -/
theorem Segment.opens (s : Segment) {r : List UInt8} (hr : 0 ∉ r) (h : sp ∈ r → sp ∈ s.text) :
    ∃ s0 arg, Opens s.text s0 r s.word arg ∧ trim (arg.getD []) = s.arg := by
  have hword : 0 ∉ s.word ∧ sp ∉ s.word :=
    ⟨(not_mem_of_plain fun c hc => (s.word_plain c hc).1).2.2, s.sp_not_mem_word⟩
  have h0 := (not_mem_of_plain s.text_plain).2.2
  rcases s.text_cases with ⟨htext, harg⟩ | ⟨t, htext, harg⟩
  · rw [htext] at h ⊢
    exact ⟨s.word, none, opens_word hword ⟨hr, fun hsp => hword.2 (h hsp)⟩, harg.symm⟩
  · rw [htext] at h0 ⊢
    exact ⟨_, some t, opens_space hword (fun hmem => h0 (by simp [hmem])) hr, harg⟩

theorem CommandLine.text_head (line : CommandLine) :
    ∃ c t, line.text = c :: t ∧ isspace c = false := by
  obtain ⟨c, t, htext, hc⟩ := line.first.text_head
  exact ⟨c, t ++ line.tail, by rw [CommandLine.text, htext, List.cons_append], hc⟩

theorem CommandLine.text_pipe (s : Segment) (gap : Nat) (rest : CommandLine) :
    (CommandLine.pipe s gap rest).text = s.text ++ bar :: (spaces gap ++ rest.text) := rfl

theorem CommandLine.text_redirect (s : Segment) (r : Redirect) :
    (CommandLine.last s (some r)).text = s.text ++ gt :: (spaces r.gap ++ r.path) := rfl

theorem CommandLine.text_last (s : Segment) : (CommandLine.last s none).text = s.text :=
  List.append_nil _

theorem CommandLine.zero_not_mem (line : CommandLine) : 0 ∉ line.text := by
  have hsp (n : Nat) : 0 ∉ spaces n := (not_mem_spaces n).2.2
  have hne : (0 : UInt8) ≠ gt ∧ (0 : UInt8) ≠ bar := by decide
  induction line with
  | last s r =>
    have hs := (not_mem_of_plain s.text_plain).2.2
    cases r with
    | none => rwa [text_last]
    | some r =>
      have hpath := (not_mem_of_plain r.path_plain).2.2
      simp [text_redirect, hs, hsp, hne, hpath]
  | pipe s gap rest ih =>
    have hs := (not_mem_of_plain s.text_plain).2.2
    simp [text_pipe, hs, hsp, hne, ih]

theorem wired_of_firstSpaceFirst (files : Vector α 3) {line : CommandLine}
    (h : line.FirstSpaceFirst) :
    Wired files (executeCommand line.text files) line := by
  obtain ⟨hgt, hsp⟩ := h
  have h0 := line.zero_not_mem
  have hplain := not_mem_of_plain line.first.text_plain
  have htail : 0 ∉ line.tail := fun hmem => h0 (List.mem_append_right _ hmem)
  obtain ⟨s0, arg, hopens, harg⟩ := line.first.opens htail fun hmem =>
    hsp (List.mem_append_right _ hmem)
  match line with
  | .last s none =>
    rw [CommandLine.text_last]
    have hexec : executeCommand s.text files = _ := executeCommand_last files hopens hplain
    rw [hexec]
    exact ⟨⟨rfl, harg⟩, rfl, rfl⟩
  | .last s (some r) =>
    have hexec : executeCommand (CommandLine.last s (some r)).text files = _ :=
      executeCommand_redirect files hopens hplain (not_mem_of_plain r.path_plain) r.path_head
    rw [hexec]
    exact ⟨⟨rfl, harg⟩, rfl, rfl⟩
  | .pipe s gap rest =>
    rw [CommandLine.text_pipe] at hgt
    have hgt' : gt ∉ rest.text := fun hmem => hgt (by simp) (by simp [hmem])
    obtain ⟨c, t, htext, hc⟩ := rest.text_head
    have hhead : ∀ x ∈ rest.text.head?, isspace x = false := by
      rw [htext]
      rintro x ⟨⟩
      exact hc
    have hexec : executeCommand (CommandLine.pipe s gap rest).text files = _ :=
      executeCommand_pipe files hopens hplain ⟨rest.zero_not_mem, hgt'⟩ hhead
    rw [hexec]
    exact ⟨⟨rfl, harg⟩, rfl, rfl⟩

/-! ## Lines that are cut in the wrong place -/

theorem exists_strchr {line : List UInt8} {c : UInt8} (h0 : 0 ∉ line) (hc : c ∈ line) :
    ∃ a b, line = a ++ c :: b ∧ c ∉ a ∧ strchr line c = some a.length := by
  obtain ⟨a, b, rfl, ha⟩ := List.eq_append_cons_of_mem hc
  have hne : c ≠ 0 := by
    rintro rfl
    exact h0 hc
  simp only [List.mem_append, List.mem_cons, not_or] at h0
  exact ⟨a, b, rfl, ha, strchr_append ⟨h0.1, h0.2.2⟩ ha hne⟩

theorem files_of_gt (files : Vector α 3) {line : List UInt8} (h0 : 0 ∉ line) (hgt : gt ∈ line) :
    ∃ dest, getElem (executeCommand line files).files 1 stdout_lt = .file dest := by
  obtain ⟨a, b, -, -, hpos⟩ := exists_strchr h0 hgt
  simp [executeCommand, hpos]

theorem length_lt_of_space {n : Nat} {a b body : List UInt8} (h : spaces n ++ body = a ++ sp :: b)
    (ha : sp ∉ a)
    (hbody : body ≠ []) : a.length < body.length := by
  rcases n with _ | n
  · have := congrArg List.length h
    simp [spaces] at this
    omega
  · cases a with
    | nil => exact List.length_pos_iff.2 hbody
    | cons c a =>
      obtain rfl : sp = c := List.head_eq_of_cons_eq h
      exact absurd List.mem_cons_self ha

section Late

variable {word a b : List UInt8} (files : Vector α 3) (hword : 0 ∉ word ∧ sp ∉ word)
    (hcut : 0 ∉ a ∧ sp ∉ a ∧ 0 ∉ b)

include hword hcut

/-- The first space of the line lies behind its first separator. -/
theorem cut_late {c : UInt8} (hc : c ≠ 0 ∧ c ≠ sp) : cut (word ++ c :: (a ++ sp :: b))
    (strchr (word ++ c :: (a ++ sp :: b)) sp) = word ++ c :: (a ++ 0 :: b) := by
  have happ (x : UInt8) : word ++ c :: (a ++ x :: b) = (word ++ c :: a) ++ x :: b := by simp
  have hpos : strchr (word ++ c :: (a ++ sp :: b)) sp = some (word ++ c :: a).length := by
    rw [happ]
    exact strchr_append (by simp [hword, hcut, hc.1.symm]) (by simp [hword, hcut, hc.2.symm])
      (by decide)
  rw [hpos, happ, cut_append, ← happ]

theorem redirect_late (hbar : bar ∉ word ++ gt :: (a ++ sp :: b)) (hgt : gt ∉ word) :
    ∃ dest, getElem (executeCommand (word ++ gt :: (a ++ sp :: b)) files).files 1 stdout_lt =
      .file dest ∧
      dest.length ≤ a.length := by
  have hno : 0 ∉ word ++ gt :: (a ++ sp :: b) := by
    have hne : (0 : UInt8) ≠ gt ∧ (0 : UInt8) ≠ sp := by decide
    simp [hword, hcut, hne]
  have hpos : strchr (word ++ gt :: (a ++ sp :: b)) gt = some word.length :=
    strchr_append ⟨hword.1, fun hmem => hno (by simp_all)⟩ hgt (by decide)
  have hcut' := cut_late hword hcut (c := gt) (by decide)
  simp [executeCommand, strchr_of_not_mem hno hbar, hpos, hcut', cut_append, cstr_skipSpace_le]

theorem subtask_late (hgt : gt ∉ word ++ bar :: (a ++ sp :: b)) (hbar : bar ∉ word) :
    ∃ sub, (executeCommand (word ++ bar :: (a ++ sp :: b)) files).subtask = some sub ∧
      sub.commandLine.length ≤ a.length := by
  have hno : 0 ∉ word ++ bar :: (a ++ sp :: b) := by
    have hne : (0 : UInt8) ≠ bar ∧ (0 : UInt8) ≠ sp := by decide
    simp [hword, hcut, hne]
  have hpos : strchr (word ++ bar :: (a ++ sp :: b)) bar = some word.length :=
    strchr_append ⟨hword.1, fun hmem => hno (by simp_all)⟩ hbar (by decide)
  have hcut' := cut_late hword hcut (c := bar) (by decide)
  simp [executeCommand, strchr_of_not_mem hno hgt, hpos, hcut', cut_append, cstr_skipSpace_le]

end Late

theorem Wired.pipe {files : Vector α 3} {w : Setup α} {s : Segment} {gap : Nat} {rest : CommandLine}
    (h : Wired files w (.pipe s gap rest)) :
    w.subtask = some ⟨rest.text, (files.map .given).set 0 .pipe stdin_lt⟩ ∧
      w.files = (files.map .given).set 1 .pipe stdout_lt :=
  h.2

theorem Wired.redirect {files : Vector α 3} {w : Setup α} {s : Segment} {r : Redirect}
    (h : Wired files w (.last s (some r))) :
    w.files = (files.map .given).set 1 (.file r.path) stdout_lt :=
  h.2.2

theorem gt_not_mem_of_wired {line : CommandLine} (files : Vector α 3)
    (h : Wired files (executeCommand line.text files) line)
    (hbar : bar ∈ line.text) : gt ∉ line.text := by
  intro hgt
  obtain ⟨dest, hdest⟩ := files_of_gt files line.zero_not_mem hgt
  cases line with
  | last s redirect =>
    cases redirect with
    | none => exact (not_mem_of_plain s.text_plain).1 (by rwa [CommandLine.text_last] at hbar)
    | some r =>
      have hs := (not_mem_of_plain s.text_plain).1
      have hpath := (not_mem_of_plain r.path_plain).1
      have hne : bar ≠ gt := by decide
      simp [CommandLine.text_redirect, hs, hpath, hne, not_mem_spaces] at hbar
  | pipe s gap rest =>
    simp [h.pipe.2] at hdest

theorem split_late {word body : List UInt8} {c : UInt8} {n : Nat}
    (h0 : 0 ∉ word ++ c :: (spaces n ++ body))
    (hsp : sp ∈ word ++ c :: (spaces n ++ body)) (hword : sp ∉ word) (hc : c ≠ sp)
    (hbody : body ≠ []) :
    ∃ a b, spaces n ++ body = a ++ sp :: b ∧ (0 ∉ a ∧ sp ∉ a ∧ 0 ∉ b) ∧ a.length < body.length := by
  have hmem : sp ∈ spaces n ++ body := by
    rcases List.mem_append.1 hsp with h | h
    · exact absurd h hword
    · exact (List.mem_cons.1 h).resolve_left hc.symm
  obtain ⟨a, b, hab, ha⟩ := List.eq_append_cons_of_mem hmem
  rw [hab] at h0
  simp only [List.mem_append, List.mem_cons, not_or] at h0
  exact ⟨a, b, hab, ⟨h0.2.2.1, ha, h0.2.2.2.2⟩, length_lt_of_space hab ha hbody⟩

theorem sp_mem_of_wired {line : CommandLine} (files : Vector α 3)
    (h : Wired files (executeCommand line.text files) line) (hsp : sp ∈ line.text) :
    sp ∈ line.first.text := by
  by_contra hno
  have hplain := not_mem_of_plain line.first.text_plain
  have hgt := gt_not_mem_of_wired files h
  have h0 := line.zero_not_mem
  match line with
  | .last s none =>
    rw [CommandLine.text_last] at hsp
    exact hno hsp
  | .last s (some r) =>
    rw [CommandLine.first] at hno hplain
    rw [CommandLine.text_redirect] at h0 hsp hgt h
    obtain ⟨a, b, hab, hcut, hlt⟩ := split_late h0 hsp hno (by decide) r.path_ne
    rw [hab] at hgt h
    obtain ⟨dest, hdest, hle⟩ :=
      redirect_late files ⟨hplain.2.2, hno⟩ hcut (fun hbar => hgt hbar (by simp)) hplain.2.1
    have hpath : r.path = dest := by simpa [h.redirect] using hdest
    rw [hpath] at hlt
    omega
  | .pipe s gap rest =>
    rw [CommandLine.first] at hno hplain
    rw [CommandLine.text_pipe] at h0 hsp hgt h
    obtain ⟨c, t, hrest, -⟩ := rest.text_head
    obtain ⟨a, b, hab, hcut, hlt⟩ := split_late h0 hsp hno (by decide) (by simp [hrest])
    rw [hab] at hgt h
    obtain ⟨sub, hsub, hle⟩ := subtask_late files ⟨hplain.2.2, hno⟩ hcut (hgt (by simp)) hplain.1
    rw [h.pipe.1] at hsub
    cases hsub
    exact absurd hlt (Nat.not_lt.2 hle)

/-- `ExecuteCommand` sets up what the line says exactly if no redirect stands behind a pipe and the
line's first space is not behind its first separator. -/
theorem wired_iff (line : CommandLine) (files : Vector α 3) :
    Wired files (executeCommand line.text files) line ↔ line.FirstSpaceFirst :=
  ⟨fun h => ⟨gt_not_mem_of_wired files h, sp_mem_of_wired files h⟩, wired_of_firstSpaceFirst files⟩

/-- `echo|cat a` -/
def echoCat : CommandLine :=
  let echo : Segment :=
    { word := [0x65, 0x63, 0x68, 0x6f], gap := 0, arg := [], trail := 0, word_ne := by decide,
      word_plain := by simp [Plain, isspace, bar, gt], arg_plain := by simp,
      arg_trim := by decide, gap_pos := by simp }
  let cat : Segment :=
    { word := [0x63, 0x61, 0x74], gap := 1, arg := [0x61], trail := 0, word_ne := by decide,
      word_plain := by simp [Plain, isspace, bar, gt], arg_plain := by simp [Plain, bar, gt],
      arg_trim := by decide, gap_pos := by simp }
  .pipe echo 0 (.last cat none)

/-- `echo` gets the argument text of `cat`, and the subtask only the word. -/
theorem not_wired_echoCat : ¬ ∀ (line : CommandLine) (files : Vector Nat 3),
    Wired files (executeCommand line.text files) line := by
  intro h
  have hsub := (h echoCat #v[0, 1, 2]).2.1
  revert hsub
  decide

end Moxia.Terminal
