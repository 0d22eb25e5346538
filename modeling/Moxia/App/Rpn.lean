import Mathlib.Data.List.GetD
import Mathlib.Data.Nat.Digits.Defs
import Moxia.Lib.StackMachine
import Moxia.Terminal.ArgVector

/-!
# The calculator (`apps/rpn`)

`rpn` is a stack machine (`main_eq`): it prints the value of an expression in postfix notation. Its
stack cannot overflow when it is started by a command, since there are at most 31 arguments, and it
has a result if and only if the arguments are expressions one behind the other that have values
(`rpn_typed`). Everything else reads in front of the stack, or is an overflow of `long`.
-/

namespace Moxia.Rpn

open Lib Lib.StackMachine Terminal

/-! ## `long` -/

def InLong (x : Int) : Prop := -2 ^ 63 ≤ x ∧ x < 2 ^ 63

instance (x : Int) : Decidable (InLong x) := inferInstanceAs (Decidable (_ ∧ _))

/-- An overflow is undefined. -/
def long (x : Int) : Option Int := if InLong x then some x else none

def isDigit (c : UInt8) : Bool := 0x30 ≤ c && c ≤ 0x39

def decimal (s : List UInt8) : Nat := s.foldl (fun n c => 10 * n + (c.toNat - 0x30)) 0

/-- `atol`, that is `strtol`: what is out of range becomes a limit. -/
def atol (s : List UInt8) : Int :=
  let s := s.dropWhile isspace
  if s.head? = some 0x2d then max (-2 ^ 63) (-decimal (s.tail.takeWhile isDigit))
  else if s.head? = some 0x2b then min (2 ^ 63 - 1) (decimal (s.tail.takeWhile isDigit))
  else min (2 ^ 63 - 1) (decimal (s.takeWhile isDigit))

def digits (n : Nat) : List UInt8 :=
  if n = 0 then [0x30] else (Nat.digits 10 n).reverse.map fun d => UInt8.ofNat (0x30 + d)

/-- What `%ld` prints. -/
def percentLD (x : Int) : List UInt8 := (if x < 0 then [0x2d] else []) ++ digits x.natAbs

/-! ## The program -/

structure State where
  stackPtr : Int
  stack : Int → Int

namespace State

/-- Behind or in front of the stack there is no access. -/
def pop (s : State) : Option (Int × State) :=
  if 0 ≤ s.stackPtr ∧ s.stackPtr < 100 then
    some (s.stack s.stackPtr, { s with stackPtr := s.stackPtr - 1 }) else none

def push (s : State) (value : Int) : Option State :=
  let stackPtr := s.stackPtr + 1
  if 0 ≤ stackPtr ∧ stackPtr < 100 then some ⟨stackPtr, Function.update s.stack stackPtr value⟩
  else none

/-- The body of the loop over the arguments. -/
def step (s : State) (arg : List UInt8) : Option State :=
  if arg = [0x2b] then do
    let (b, s) ← s.pop
    let (a, s) ← s.pop
    let value ← long (a + b)
    s.push value
  else if arg = [0x2d] then do
    let (b, s) ← s.pop
    let (a, s) ← s.pop
    let value ← long (a - b)
    s.push value
  else s.push (atol arg)

def result (s : State) : Option Int := if 0 ≤ s.stackPtr then s.pop.map Prod.fst else some 0

end State

/-- What is printed. The stack is zero when the program is loaded. -/
def main (argv : List (List UInt8)) : Option (List UInt8) := do
  let s ← argv.tail.foldlM State.step ⟨-1, fun _ => 0⟩
  let result ← s.result
  some (percentLD result ++ [0x0a])

/-! ## Expressions -/

inductive Op
  | add | sub
deriving DecidableEq

def Op.apply : Op → Int → Int → Option Int
  | add, a, b => long (a + b)
  | sub, a, b => long (a - b)

/-- What an argument is for the loop. -/
def symbol (arg : List UInt8) : Int ⊕ Op :=
  if arg = [0x2b] then .inr .add else if arg = [0x2d] then .inr .sub else .inl (atol arg)

/-- How a symbol is written. -/
def spell : Int ⊕ Op → List UInt8
  | .inl a => percentLD a
  | .inr .add => [0x2b]
  | .inr .sub => [0x2d]

/-! ## Numbers are read as they are printed -/

variable {n : Nat} {x : Int} {c : UInt8}

theorem isDigit_digits (hc : c ∈ digits n) : isDigit c = true := by
  rw [digits] at hc
  split at hc
  · obtain rfl := List.mem_singleton.1 hc
    rfl
  · obtain ⟨d, hd, rfl⟩ := List.mem_map.1 hc
    have hlt : d < 10 := Nat.digits_lt_base (by decide) (List.mem_reverse.1 hd)
    have hall : ∀ d, d < 10 → isDigit (UInt8.ofNat (0x30 + d)) = true := by decide
    exact hall d hlt

theorem digits_ne_nil : digits n ≠ [] := by
  rw [digits]
  split
  · exact List.cons_ne_nil _ _
  · rename_i hn
    rw [Ne, List.map_eq_nil_iff, List.reverse_eq_nil_iff]
    exact Nat.digits_ne_nil_iff_ne_zero.2 hn

theorem decimal_append (s : List UInt8) (c : UInt8) :
    decimal (s ++ [c]) = 10 * decimal s + (c.toNat - 0x30) := by
  rw [decimal, List.foldl_append]
  rfl

theorem decimal_digits (n : Nat) : decimal (digits n) = n := by
  have hofDigits : ∀ l : List Nat, (∀ d ∈ l, d < 10) →
      decimal (l.reverse.map fun d => UInt8.ofNat (0x30 + d)) = Nat.ofDigits 10 l := by
    intro l hl
    induction l with
    | nil => rfl
    | cons d l ih =>
      have hd : d < 10 := hl d List.mem_cons_self
      have hbyte : (UInt8.ofNat (0x30 + d)).toNat - 0x30 = d := by
        rw [UInt8.toNat_ofNat']
        omega
      rw [List.reverse_cons, List.map_append, List.map_singleton, decimal_append, ih fun d hd =>
        hl d (List.mem_cons_of_mem _ hd), hbyte,
        Nat.ofDigits_cons]
      exact Nat.add_comm ..
  rw [digits]
  split
  · rename_i hn
    rw [hn]
    rfl
  · rw [hofDigits _ fun d hd => Nat.digits_lt_base (by decide) hd, Nat.ofDigits_digits]

theorem takeWhile_digits : (digits n).takeWhile isDigit = digits n :=
  List.takeWhile_eq_self_iff.2 fun _ hc => isDigit_digits hc

theorem head_digits : ∃ c rest, digits n = c :: rest ∧ isDigit c = true := by
  obtain ⟨c, rest, heq⟩ := List.exists_cons_of_ne_nil (digits_ne_nil (n := n))
  exact ⟨c, rest, heq, isDigit_digits (heq ▸ List.mem_cons_self)⟩

theorem digit_cases (hc : isDigit c = true) : isspace c = false ∧ c ≠ 0x2d ∧ c ≠ 0x2b := by
  rw [isDigit, Bool.and_eq_true, decide_eq_true_eq, decide_eq_true_eq, UInt8.le_iff_toNat_le,
    UInt8.le_iff_toNat_le] at hc
  have hlow : 48 ≤ c.toNat := hc.1
  have hne (d : UInt8) (hd : d.toNat < 48) : c ≠ d := by
    rintro rfl
    omega
  refine ⟨?_, hne _ (by decide), hne _ (by decide)⟩
  have hthirteen : ¬ c ≤ 0x0d := by
    rw [UInt8.le_iff_toNat_le]
    change ¬ c.toNat ≤ 13
    omega
  rw [isspace, decide_eq_false (hne 0x20 (by decide)), decide_eq_false hthirteen, Bool.and_false,
    Bool.or_false]

theorem atol_percentLD (hx : InLong x) : atol (percentLD x) = x := by
  obtain ⟨hlow, hhigh⟩ := hx
  rw [atol, percentLD]
  split
  · rename_i hneg
    have hstart : ([0x2d] ++ digits x.natAbs).dropWhile isspace = 0x2d :: digits x.natAbs := rfl
    rw [hstart, if_pos (List.head?_cons ..), List.tail_cons, takeWhile_digits, decimal_digits]
    omega
  · obtain ⟨c, rest, hdigits, hc⟩ := head_digits (n := x.natAbs)
    obtain ⟨hspace, hminus, hplus⟩ := digit_cases hc
    have hstart : ([] ++ digits x.natAbs).dropWhile isspace = digits x.natAbs := by
      rw [List.nil_append, hdigits, List.dropWhile_cons_of_neg (by rw [hspace]; decide)]
    have hhead : (digits x.natAbs).head? = some c := by rw [hdigits, List.head?_cons]
    rw [hstart, hhead, if_neg fun h => hminus (Option.some.inj h), if_neg fun h =>
      hplus (Option.some.inj h), takeWhile_digits,
      decimal_digits]
    omega

theorem symbol_spell {a : Int ⊕ Op} (ha : ∀ x, a = .inl x → InLong x) : symbol (spell a) = a := by
  cases a with
  | inr op => cases op <;> rfl
  | inl x =>
    have hsign : percentLD x ≠ [0x2b] ∧ percentLD x ≠ [0x2d] := by
      obtain ⟨c, rest, hdigits, hc⟩ := head_digits (n := x.natAbs)
      obtain ⟨-, hminus, hplus⟩ := digit_cases hc
      rw [percentLD, hdigits]
      split
      · exact ⟨by simp, by simp⟩
      · exact ⟨fun h => hplus (List.cons.inj h).1, fun h => hminus (List.cons.inj h).1⟩
    rw [symbol, spell, if_neg hsign.1, if_neg hsign.2, atol_percentLD (ha x rfl)]

/-! ## The stack -/

variable {s s' : State} {l l' : List Int} {stack : Int → Int} {arg : List UInt8}

/-- The values are in the stack, the last one at the bottom. -/
def Holds (stack : Int → Int) : List Int → Prop
  | [] => True
  | v :: l => stack l.length = v ∧ Holds stack l

structure Shows (s : State) (l : List Int) : Prop where
  stackPtr : s.stackPtr = l.length - 1
  le : l.length ≤ 100
  holds : Holds s.stack l

theorem Holds.update (h : Holds stack l) {p : Int} (hp : l.length ≤ p) (v : Int) :
    Holds (Function.update stack p v) l := by
  induction l with
  | nil => trivial
  | cons w l ih =>
    rw [List.length_cons] at hp
    refine ⟨?_, ih h.2 (by omega)⟩
    rw [Function.update_of_ne (by omega)]
    exact h.1

theorem Shows.pop_nil (h : Shows s []) : s.pop = none := by
  have hptr : s.stackPtr = -1 := h.stackPtr
  rw [State.pop, if_neg (by omega)]

theorem Shows.pop_cons {v : Int} (h : Shows s (v :: l)) :
    ∃ s', s.pop = some (v, s') ∧ Shows s' l := by
  have hptr := h.stackPtr
  have hle := h.le
  rw [List.length_cons] at hptr hle
  have htop : s.stackPtr = l.length := by omega
  refine ⟨{ s with stackPtr := s.stackPtr - 1 }, ?_, by rw [htop], by omega, h.holds.2⟩
  have hin : 0 ≤ s.stackPtr ∧ s.stackPtr < 100 := by omega
  rw [State.pop, if_pos hin, htop, h.holds.1]

theorem Shows.push (h : Shows s l) (v : Int) :
    (l.length < 100 → ∃ s', s.push v = some s' ∧ Shows s' (v :: l)) ∧
      (¬ l.length < 100 → s.push v = none) := by
  have hptr : s.stackPtr + 1 = l.length := by
    have := h.stackPtr
    omega
  rw [State.push, hptr]
  constructor
  · intro hlt
    have hin : 0 ≤ (l.length : Int) ∧ (l.length : Int) < 100 := by omega
    refine ⟨_, if_pos hin, by simp, by
      rw [List.length_cons]; omega, ?_, h.holds.update (Int.le_refl _) v⟩
    exact Function.update_self ..
  · intro hlt
    exact if_neg (by omega)

/-- The two machines do the same. -/
inductive Agree : Option State → Option (List Int) → Prop
  | stuck : Agree none none
  | shows {s : State} {l : List Int} (h : Shows s l) : Agree (some s) (some l)

theorem Agree.push (h : Shows s l) (v : Int) :
    Agree (s.push v) (if l.length < 100 then some (v :: l) else none) := by
  obtain ⟨hroom, hfull⟩ := h.push v
  split
  · rename_i hlt
    obtain ⟨s', hpush, hshows⟩ := hroom hlt
    rw [hpush]
    exact .shows hshows
  · rename_i hlt
    rw [hfull hlt]
    exact .stuck

theorem Agree.operator (h : Shows s l) (op : Op) : Agree
    (do let (b, s) ← s.pop; let (a, s) ← s.pop; let value ← op.apply a b; s.push value)
    (exec Op.apply 100 l [.inr op]) := by
  rcases l with _ | ⟨b, _ | ⟨a, l⟩⟩
  · rw [h.pop_nil]
    exact .stuck
  · obtain ⟨s₁, hb, h₁⟩ := h.pop_cons
    rw [hb]
    change Agree (s₁.pop >>= _) none
    rw [h₁.pop_nil]
    exact .stuck
  · obtain ⟨s₁, hb, h₁⟩ := h.pop_cons
    obtain ⟨s₂, ha, h₂⟩ := h₁.pop_cons
    rw [hb]
    change Agree (s₁.pop >>= _) _
    rw [ha]
    change Agree ((op.apply a b).bind fun value => s₂.push value)
      ((op.apply a b).bind fun v => some (v :: l))
    cases op.apply a b with
    | none => exact .stuck
    | some v =>
      have hpush := Agree.push h₂ v
      have hle := h.le
      rw [List.length_cons, List.length_cons] at hle
      rwa [if_pos (by omega)] at hpush

theorem Agree.step (h : Shows s l) (arg : List UInt8) :
    Agree (s.step arg) (exec Op.apply 100 l [symbol arg]) := by
  rw [State.step, symbol]
  split
  · exact Agree.operator h .add
  split
  · exact Agree.operator h .sub
  · exact Agree.push h _

theorem exec_cons (c : Int ⊕ Op) (cs : List (Int ⊕ Op)) :
    exec Op.apply 100 l (c :: cs) = (exec Op.apply 100 l [c]).bind fun l =>
      exec Op.apply 100 l cs := by
  cases c with
  | inl x =>
    rw [exec, exec]
    split <;> rfl
  | inr op =>
    rcases l with _ | ⟨b, _ | ⟨a, l⟩⟩
    · rfl
    · rfl
    · rw [exec, exec, Option.bind_assoc]
      rfl

theorem Agree.run (h : Shows s l) (args : List (List UInt8)) :
    Agree (args.foldlM State.step s) (exec Op.apply 100 l (args.map symbol)) := by
  induction args generalizing s l with
  | nil => exact .shows h
  | cons arg args ih =>
    rw [List.foldlM_cons, List.map_cons, exec_cons]
    have hstep := Agree.step h arg
    cases heq : s.step arg with
    | none =>
      rw [heq] at hstep
      cases hexec : exec Op.apply 100 l [symbol arg] with
      | none => exact .stuck
      | some l' =>
        rw [hexec] at hstep
        cases hstep
    | some s' =>
      rw [heq] at hstep
      cases hexec : exec Op.apply 100 l [symbol arg] with
      | none =>
        rw [hexec] at hstep
        cases hstep
      | some l' =>
        rw [hexec] at hstep
        cases hstep with
        | shows h' => exact ih h'

/-- `rpn` prints what is on the top of the stack, or 0. -/
theorem main_eq (argv : List (List UInt8)) :
    main argv = (exec Op.apply 100 [] (argv.tail.map symbol)).map fun l =>
      percentLD (l.headD 0) ++ [0x0a] := by
  have hstart : Shows ⟨-1, fun _ => 0⟩ [] := ⟨rfl, by decide, trivial⟩
  have hrun := Agree.run hstart argv.tail
  rw [main]
  generalize exec Op.apply 100 [] (argv.tail.map symbol) = r at hrun
  generalize argv.tail.foldlM State.step ⟨-1, fun _ => 0⟩ = q at hrun
  cases hrun with
  | stuck => rfl
  | @shows s l h =>
    have hptr := h.stackPtr
    change (s.result.bind fun result => some (percentLD result ++ [0x0a])) =
      some (percentLD (l.headD 0) ++ [0x0a])
    rw [State.result]
    cases l with
    | nil =>
      have hneg : ¬ 0 ≤ s.stackPtr := by
        rw [hptr]
        decide
      rw [if_neg hneg]
      rfl
    | cons v l =>
      obtain ⟨s', hpop, -⟩ := h.pop_cons
      have hpos : 0 ≤ s.stackPtr := by
        rw [hptr, List.length_cons]
        omega
      rw [if_pos hpos, hpop]
      rfl

/-! ## From the command line on -/

/-- The strings that the pointers of the vector lead to. -/
def strings (argbufLen : Nat) (a : ArgVector) : List (List UInt8) :=
  a.argv.map fun off =>
    ((List.range (argbufLen - off)).map fun i => a.argbuf (off + i)).takeWhile (· ≠ 0)

theorem strings_eq {argbufLen : Nat} {a : ArgVector} {args : List (List UInt8)}
    (hcopies : a.Copies argbufLen args)
    (hzero : ∀ w ∈ args, 0 ∉ w) : strings argbufLen a = args := by
  refine List.ext_getElem? fun k => ?_
  rw [strings, List.getElem?_map]
  cases hk : args[k]? with
  | none =>
    have hlen : a.argv.length = args.length := hcopies.argc
    rw [List.getElem?_eq_none_iff, ← hlen] at hk
    rw [List.getElem?_eq_none_iff.2 hk, Option.map_none]
  | some w =>
    have hlt : k < a.argv.length := by
      have hlen : a.argv.length = args.length := hcopies.argc
      rw [hlen]
      exact (List.getElem?_eq_some_iff.1 hk).1
    have hoff := List.getElem?_eq_getElem hlt
    obtain ⟨hroom, hcopy⟩ := hcopies.copy k w _ hk hoff
    have hw : 0 ∉ w := hzero w (List.mem_of_getElem? hk)
    rw [hoff, Option.map_some, Option.some.injEq]
    -- the string and its terminator are in front
    obtain ⟨j, hj⟩ : ∃ j, argbufLen - a.argv[k] = w.length + 1 + j :=
      ⟨argbufLen - a.argv[k] - (w.length + 1), by omega⟩
    rw [hj, List.range_add, List.range_succ, List.map_append, List.map_append, List.append_assoc,
      List.map_singleton,
      hcopy w.length (Nat.le_refl _), List.getD_eq_default _ _ (Nat.le_refl _)]
    have hfront : (List.range w.length).map (fun i => a.argbuf (a.argv[k] + i)) = w := by
      refine List.ext_getElem (by rw [List.length_map, List.length_range]) fun i hi hi' => ?_
      rw [List.getElem_map, List.getElem_range, hcopy i (Nat.le_of_lt hi'),
        List.getD_eq_getElem _ _ hi']
    have hall : ∀ c ∈ w, decide (c ≠ 0) = true := fun c hc => decide_eq_true fun h0 => hw (h0 ▸ hc)
    rw [hfront, List.takeWhile_append_of_pos hall, List.singleton_append,
      List.takeWhile_cons_of_neg (by decide), List.append_nil]

theorem mem_of_mem_splitOnP {q : UInt8 → Bool} {t w : List UInt8} (hw : w ∈ t.splitOnP q)
    (hc : c ∈ w) : c ∈ t := by
  induction t generalizing w with
  | nil =>
    rw [List.splitOnP_nil, List.mem_singleton] at hw
    exact hw ▸ hc
  | cons d t ih =>
    rw [List.splitOnP_cons_eq_if_modifyHead] at hw
    split at hw
    · rcases List.mem_cons.1 hw with rfl | hw
      · cases hc
      · exact List.mem_cons_of_mem _ (ih hw hc)
    · obtain ⟨w₀, ws, hsplit⟩ := List.exists_cons_of_ne_nil (List.splitOnP_ne_nil q t)
      rw [hsplit, List.modifyHead_cons] at hw
      rw [hsplit] at ih
      rcases List.mem_cons.1 hw with rfl | hw
      · rcases List.mem_cons.1 hc with rfl | hc
        · exact List.mem_cons_self
        · exact List.mem_cons_of_mem _ (ih List.mem_cons_self hc)
      · exact List.mem_cons_of_mem _ (ih (List.mem_cons_of_mem _ hw) hc)

/-- `"rpn"` -/
def name : List UInt8 := [0x72, 0x70, 0x6e]

/-- The name alone, or a blank and a text behind it. -/
def commandLine (text : Option (List UInt8)) : List UInt8 := name ++ text.elim [] (sp :: ·)

/-- What can be typed behind the name: the arguments fit in the page, and there is neither a pipe
nor a redirect. -/
structure Typed (text : Option (List UInt8)) : Prop where
  plain : ∀ c ∈ text.getD [], Plain c
  count : (words (text.getD [])).length ≤ 31
  room : needed (name :: words (text.getD [])) ≤ 3840

variable {α : Type} {text : Option (List UInt8)}

theorem executeCommand_bare (files : Vector α 3) :
    (executeCommand (commandLine none) files).cmd = name ∧
      (executeCommand (commandLine none) files).arg = none := by
  have hno : 0 ∉ name := by decide
  have hsp : strchr (commandLine none) sp = none := strchr_of_not_mem hno (by decide)
  have hpipe : strchr (commandLine none) bar = none := strchr_of_not_mem hno (by decide)
  have hredir : strchr (commandLine none) gt = none := strchr_of_not_mem hno (by decide)
  rw [executeCommand, hsp, hpipe, hredir]
  show cstr (cut (cut (cut (commandLine none) none) none) none) 0 = name ∧ none = none
  exact ⟨by decide, rfl⟩

theorem executeCommand_typed (ht : ∀ c ∈ text.getD [], Plain c) (files : Vector α 3) :
    (executeCommand (commandLine text) files).cmd = name ∧
      (executeCommand (commandLine text) files).arg = text := by
  obtain ⟨hbar, hgt, hzero⟩ := not_mem_of_plain ht
  rcases text with _ | t
  · exact executeCommand_bare files
  have hname : 0 ∉ name := by decide
  rw [Option.getD_some] at hbar hgt hzero
  rw [commandLine, Option.elim_some]
  have hsp : strchr (name ++ sp :: t) sp = some name.length :=
    strchr_append ⟨hname, hzero⟩ (by decide) (by decide)
  have hno : 0 ∉ name ++ sp :: t := by
    rw [List.mem_append, List.mem_cons]
    exact fun h => h.elim hname fun h => h.elim (by decide) hzero
  have hpipe : strchr (name ++ sp :: t) bar = none := by
    refine strchr_of_not_mem hno ?_
    rw [List.mem_append, List.mem_cons]
    exact fun h => h.elim (by decide) fun h => h.elim (by decide) hbar
  have hredir : strchr (name ++ sp :: t) gt = none := by
    refine strchr_of_not_mem hno ?_
    rw [List.mem_append, List.mem_cons]
    exact fun h => h.elim (by decide) fun h => h.elim (by decide) hgt
  rw [executeCommand, hsp, hpipe, hredir, cut_append]
  refine ⟨cstr_zero hname rfl, congrArg some ?_⟩
  have harg : cstr (name ++ 0 :: (t ++ [])) (name.length + 1) = t := cstr_succ hzero rfl
  rwa [List.append_nil] at harg

/-- `MakeArgVector` puts the words of the line into the page. -/
theorem exists_strings (ht : Typed text) (files : Vector α 3) (argbuf : Nat → UInt8) : ∃ a,
    makeArgVector (executeCommand (commandLine text) files).cmd
      (executeCommand (commandLine text) files).arg 32 3840 argbuf =
      some (a, .kSuccess) ∧
    strings 3840 a = name :: words (text.getD []) := by
  obtain ⟨hcmd, harg⟩ := executeCommand_typed ht.plain files
  obtain ⟨-, -, hzero⟩ := not_mem_of_plain ht.plain
  have hname : 0 ∉ name := by decide
  have hempty : ArgVector.Holds ⟨[], argbuf, 0⟩ [] := by
    refine ⟨rfl, fun k hk => absurd hk (Nat.not_lt_zero k), rfl, fun k s i hs => ?_⟩
    rw [List.getElem?_nil] at hs
    cases hs
  have hcount : (name :: words (text.getD [])).length ≤ 32 := Nat.succ_le_succ ht.count
  have hroom : needed (([] ++ name :: words (text.getD [])).take 32) ≤ 3840 := by
    rw [List.nil_append, List.take_of_length_le hcount]
    exact ht.room
  obtain ⟨a, hrun, hholds⟩ := pushAll_spec hempty (Nat.zero_le _) hroom
  rw [List.nil_append, List.take_of_length_le hcount] at hholds
  rw [List.nil_append, if_pos hcount] at hrun
  refine ⟨a, ?_, strings_eq (hholds.copies ht.room) fun w hw => ?_⟩
  · rw [hcmd, harg, makeArgVector_eq hname fun s hs => by
      rw [hs] at hzero; exact hzero, arguments, hrun]
  · rcases List.mem_cons.1 hw with rfl | hw
    · exact hname
    · exact fun h0 => hzero (mem_of_mem_splitOnP (List.mem_filter.1 hw).1 h0)

theorem main_eq_some_iff {args : List (List UInt8)} (hcount : args.length ≤ 31)
    {out : List UInt8} : main (name :: args) = some out ↔
      ∃ trees vs, args.map symbol = StackMachine.text trees ∧
        List.Forall₂ (fun e v => e.eval Op.apply = some v) trees vs ∧
        out = percentLD (vs.headD 0) ++ [0x0a] := by
  rw [main_eq, List.tail_cons, Option.map_eq_some_iff]
  constructor
  · rintro ⟨vs, hexec, rfl⟩
    obtain ⟨trees, htext, -, hvs⟩ := exec_eq_some_iff.1 hexec
    exact ⟨trees, vs, htext, hvs, rfl⟩
  · rintro ⟨trees, vs, htext, hvs, rfl⟩
    have hfits : Fits 100 trees := fits_of_length (by
      rw [← htext, List.length_map]
      exact Nat.le_trans hcount (by decide))
    exact ⟨vs, exec_eq_some_iff.2 ⟨trees, htext, hfits, hvs⟩, rfl⟩

theorem main_spell {e : Expression Int Op} (he : ∀ x, .inl x ∈ e.symbols → InLong x)
    (hcount : (e.symbols.map spell).length ≤ 31) :
    main (name :: e.symbols.map spell) =
      (e.eval Op.apply).map fun v => percentLD v ++ [0x0a] := by
  have hsymbols : (e.symbols.map spell).map symbol = e.symbols := by
    rw [List.map_map]
    refine (List.map_congr_left fun c hc => ?_).trans (List.map_id _)
    exact symbol_spell fun x hx => he x (hx ▸ hc)
  have hslots : e.slots ≤ 100 := by
    have hle := e.slots_le.2
    rw [List.length_map] at hcount
    exact Nat.le_trans hle (Nat.le_trans hcount (by decide))
  have hexec := @exec_symbols _ _ Op.apply 100 e [] []
  rw [List.append_nil, List.length_nil, Nat.zero_add, if_pos hslots] at hexec
  rw [main_eq, List.tail_cons, hsymbols, hexec]
  cases e.eval Op.apply <;> rfl

/-- A command line that starts `rpn` calls `main` with its words. It prints the value of the last
expression, or 0, if the other words are expressions that have values, and otherwise it goes wrong.
An expression with numbers in the range of `long` is read as it is meant. -/
theorem rpn_typed (ht : Typed text) (files : Vector α 3) (argbuf : Nat → UInt8) : ∃ a,
    makeArgVector (executeCommand (commandLine text) files).cmd
      (executeCommand (commandLine text) files).arg 32 3840 argbuf =
      some (a, .kSuccess) ∧
    strings 3840 a = name :: words (text.getD []) ∧
    (∀ out, main (strings 3840 a) = some out ↔
      ∃ trees vs, (words (text.getD [])).map symbol = StackMachine.text trees ∧
      List.Forall₂ (fun e v => e.eval Op.apply = some v) trees vs ∧
        out = percentLD (vs.headD 0) ++ [0x0a]) ∧
    ∀ e : Expression Int Op, (∀ x, .inl x ∈ e.symbols → InLong x) →
      words (text.getD []) = e.symbols.map spell →
      main (strings 3840 a) = (e.eval Op.apply).map fun v => percentLD v ++ [0x0a] := by
  obtain ⟨a, hrun, hstrings⟩ := exists_strings ht files argbuf
  refine ⟨a, hrun, hstrings, fun out => ?_, fun e he hwords => ?_⟩
  · rw [hstrings]
    exact main_eq_some_iff ht.count
  · rw [hstrings, hwords]
    exact main_spell he (hwords ▸ ht.count)

/-- `rpn 1 2 +` -/
def onePlusTwo : List UInt8 := [0x31, 0x20, 0x32, 0x20, 0x2b]

theorem words_onePlusTwo : words onePlusTwo = [[0x31], [0x32], [0x2b]] := by decide

theorem rpn_typed_onePlusTwo : ∃ a,
    makeArgVector (executeCommand (commandLine (some onePlusTwo)) (.replicate 3 ())).cmd
      (executeCommand (commandLine (some onePlusTwo)) (.replicate 3 ())).arg 32 3840 (fun _ => 0) =
        some (a, .kSuccess) ∧
    main (strings 3840 a) = some [0x33, 0x0a] := by
  have ht : Typed (some onePlusTwo) := ⟨by simp [onePlusTwo, Plain, bar, gt], by decide, by decide⟩
  obtain ⟨a, hrun, -, -, heval⟩ := rpn_typed ht (.replicate 3 ()) fun _ => 0
  have hsymbols : words onePlusTwo =
    (Expression.node Op.add (.leaf 1) (.leaf 2)).symbols.map spell := by
    rw [words_onePlusTwo]
    decide
  have hrange : ∀ x, Sum.inl x ∈ (Expression.node Op.add (.leaf 1) (.leaf 2)).symbols →
    InLong x := by
    simp [Expression.symbols, InLong]
  refine ⟨a, hrun, (heval _ hrange hsymbols).trans ?_⟩
  decide

end Moxia.Rpn
