import Moxia.Lib.Bytes
import Moxia.Memory.Manager
import Moxia.Terminal.CommandLine

/-!
# Argument vectors (`MakeArgVector`)

The argument string is cut in place, and the command word and its words are copied one behind the
other into `argbuf`: the vector is the one that pushing the words of a plain splitter makes
(`makeArgVector_eq`), and as long as `argbuf` is large enough only the length of `argv` limits it.
-/

namespace Moxia.Terminal

open Lib

/-- The vector so far; the pointers in `argv` are offsets in `argbuf`. -/
structure ArgVector where
  argv : List Nat
  argbuf : Nat → UInt8
  argbufIndex : Nat

namespace ArgVector

def argc (a : ArgVector) : Nat := a.argv.length

/-- `push_to_argv`. Nothing keeps `strcpy` within `argbuf`. -/
def push (argvLen argbufLen : Nat) (a : ArgVector) (s : List UInt8) : Except Error ArgVector :=
  if argvLen ≤ a.argc ∨ argbufLen ≤ a.argbufIndex then .error .kFull
  else .ok {
    argv := a.argv ++ [a.argbufIndex]
    argbuf := store a.argbuf a.argbufIndex (s.length + 1) fun i => s.getD i 0
    argbufIndex := a.argbufIndex + (s.length + 1) }

end ArgVector

/-- `p[0]`, the terminator of the string being behind the list. -/
def charAt (line : List UInt8) (p : Nat) : UInt8 := line.getD p 0

/-- `while (p[0] != 0 && !isspace(p[0])) ++p;` -/
def skipWord (line : List UInt8) (p : Nat) : Nat :=
  p + ((line.drop p).takeWhile fun c => c ≠ 0 && !isspace c).length

/-- The loop of `MakeArgVector`. -/
def splitArgs (argvLen argbufLen : Nat) : Nat → List UInt8 → Nat → ArgVector →
    Option (ArgVector × Error)
  | 0, _, _, _ => none
  | fuel + 1, line, p, a =>
    let p := skipSpace line p
    if charAt line p = 0 then some (a, .kSuccess)
    else
      let arg := p
      let p := skipWord line p
      let isEnd : Bool := charAt line p = 0
      let line := line.set p 0
      match a.push argvLen argbufLen (cstr line arg) with
      | .error err => some (a, err)
      | .ok a =>
          if isEnd then some (a, .kSuccess) else splitArgs argvLen argbufLen fuel line (p + 1) a

def makeArgVector (cmd : List UInt8) (firstArg : Option (List UInt8)) (argvLen argbufLen : Nat)
    (argbuf : Nat → UInt8) : Option (ArgVector × Error) :=
  let a : ArgVector := ⟨[], argbuf, 0⟩
  match a.push argvLen argbufLen (cstr cmd 0) with
  | .error err => some (a, err)
  | .ok a => match firstArg with
    | none => some (a, .kSuccess)
    | some line => splitArgs argvLen argbufLen (line.length + 1) line 0 a

/-! ## The words of a string -/

variable {s w rest pre : List UInt8} {c : UInt8}

/-- The maximal parts without whitespace. -/
def words (s : List UInt8) : List (List UInt8) := (s.splitOnP isspace).filter (· ≠ [])

theorem words_append_space (hc : isspace c = true) (s rest : List UInt8) :
    words (s ++ c :: rest) = words s ++ words rest := by
  rw [words, List.splitOnP_append_cons s rest hc, List.filter_append, words, words]

theorem words_of_word (hne : w ≠ []) (hw : ∀ c ∈ w, isspace c = false) : words w = [w] := by
  rw [words, List.splitOnP_eq_singleton hw]
  simp [hne]

theorem words_spaces (hs : ∀ c ∈ s, isspace c = true) (rest : List UInt8) :
    words (s ++ rest) = words rest := by
  induction s with
  | nil => rfl
  | cons c s ih =>
    have h := words_append_space (hs c List.mem_cons_self) [] (s ++ rest)
    rw [List.nil_append] at h
    rw [List.cons_append, h, ih fun x hx => hs x (List.mem_cons_of_mem _ hx)]
    simp [words]

/-- What is copied into `argbuf`, if there is room for all of it. -/
def arguments (cmd : List UInt8) (firstArg : Option (List UInt8)) : List (List UInt8) :=
  cmd :: words (firstArg.getD [])

/-- The strings are pushed one by one. -/
def pushAll (argvLen argbufLen : Nat) : ArgVector → List (List UInt8) → ArgVector × Error
  | a, [] => (a, .kSuccess)
  | a, s :: ss => match a.push argvLen argbufLen s with
    | .error err => (a, err)
    | .ok a => pushAll argvLen argbufLen a ss

variable {argvLen argbufLen : Nat} {a : ArgVector}

theorem exists_word (s : List UInt8) : ∃ sps w rest, s = sps ++ (w ++ rest) ∧
    (∀ c ∈ sps, isspace c = true) ∧
    (∀ c ∈ w, isspace c = false) ∧ (w = [] → rest = []) ∧ ∀ c ∈ rest.head?, isspace c = true := by
  have hrest : ∀ l : List UInt8, ∀ c ∈ (l.dropWhile (! isspace ·)).head?, isspace c = true :=
    fun l c hc => by
    have h := List.head?_dropWhile_not (! isspace ·) l
    rw [Option.mem_def.1 hc] at h
    simpa using h
  refine ⟨s.takeWhile isspace, (s.dropWhile isspace).takeWhile (! isspace ·),
    (s.dropWhile isspace).dropWhile (! isspace ·), ?_, fun c hc => List.mem_takeWhile_imp hc,
      fun c hc => ?_,
    fun hnil => ?_, hrest _⟩
  · rw [List.takeWhile_append_dropWhile, List.takeWhile_append_dropWhile]
  · simpa using List.mem_takeWhile_imp hc
  · -- what follows the white space does not start with white space
    have h := List.head?_dropWhile_not isspace s
    rcases ht : s.dropWhile isspace with _ | ⟨c, t⟩
    · rfl
    · rw [ht] at h hnil
      have hc : isspace c = false := h
      rw [List.takeWhile_cons_of_pos (by simpa using hc)] at hnil
      cases hnil

theorem takeWhile_drop {q : UInt8 → Bool} (pre : List UInt8) {x r : List UInt8}
    (hx : ∀ c ∈ x, q c = true)
    (hr : ∀ c ∈ r.head?, q c = false) : ((pre ++ (x ++ r)).drop pre.length).takeWhile q = x := by
  have hnil : r.takeWhile q = [] := by
    cases r with
    | nil => rfl
    | cons c r => exact List.takeWhile_cons_of_neg (by simpa using hr c rfl)
  rw [List.drop_left, List.takeWhile_append_of_pos hx, hnil, List.append_nil]

theorem charAt_append (pre : List UInt8) (r : List UInt8) :
    charAt (pre ++ r) pre.length = r.head?.getD 0 := by
  rw [charAt, List.getD_eq_getElem?_getD, List.getElem?_append_right (Nat.le_refl _), Nat.sub_self,
    List.head?_eq_getElem?]

theorem skipSpace_eq (pre : List UInt8) {x r : List UInt8} (hx : ∀ c ∈ x, isspace c = true)
    (hr : ∀ c ∈ r.head?, isspace c = false) :
    skipSpace (pre ++ (x ++ r)) pre.length = (pre ++ x).length := by
  rw [skipSpace, takeWhile_drop pre hx hr, List.length_append]

theorem skipWord_eq (pre : List UInt8) {x r : List UInt8} (hx : ∀ c ∈ x, c ≠ 0 ∧ isspace c = false)
    (hr : ∀ c ∈ r.head?, isspace c = true) :
    skipWord (pre ++ (x ++ r)) pre.length = (pre ++ x).length := by
  rw [skipWord, takeWhile_drop pre (fun c hc => ?_) fun c hc => ?_, List.length_append]
  · simp [hx c hc]
  · simp [hr c hc]

/-- The loop pushes the words of the string. -/
theorem splitArgs_eq : ∀ {fuel} {pre s : List UInt8} {a : ArgVector}, 0 ∉ s → s.length < fuel →
    splitArgs argvLen argbufLen fuel (pre ++ s) pre.length a =
      some (pushAll argvLen argbufLen a (words s)) := by
  intro fuel
  induction fuel with
  | zero => exact fun _ h => absurd h (Nat.not_lt_zero _)
  | succ fuel ih =>
    intro pre s a h0 hlen
    obtain ⟨sps, w, rest, rfl, hsps, hw, hnil, hrest⟩ := exists_word s
    have hskip : skipSpace (pre ++ (sps ++ (w ++ rest))) pre.length = (pre ++ sps).length := by
      refine skipSpace_eq pre hsps fun c hc => ?_
      rcases w with _ | ⟨x, w⟩
      · rw [hnil rfl] at hc
        cases hc
      · cases hc
        exact hw _ List.mem_cons_self
    have hassoc : pre ++ (sps ++ (w ++ rest)) = pre ++ sps ++ (w ++ rest) :=
      (List.append_assoc ..).symm
    rw [splitArgs, hskip, hassoc, charAt_append, words_spaces hsps]
    by_cases hempty : w = []
    · -- no word is left
      obtain rfl := hempty
      obtain rfl := hnil rfl
      rfl
    have h0w : 0 ∉ w := fun h => h0 (by simp [h])
    have hhead : (w ++ rest).head?.getD 0 ≠ 0 := by
      obtain ⟨x, w, rfl⟩ := List.exists_cons_of_ne_nil hempty
      exact fun h => h0w (by simp_all)
    have hword : skipWord (pre ++ sps ++ (w ++ rest)) (pre ++ sps).length =
      (pre ++ sps ++ w).length :=
      skipWord_eq (pre ++ sps) (fun c hc => ⟨fun h => h0w (h ▸ hc), hw c hc⟩) hrest
    rw [if_neg hhead, hword]
    have hend : charAt (pre ++ sps ++ (w ++ rest)) (pre ++ sps ++ w).length =
      rest.head?.getD 0 := by
      rw [← List.append_assoc, charAt_append]
    dsimp only
    rw [hend]
    rcases rest with _ | ⟨c, rest⟩
    · -- the last word ends with the string
      have hset : (pre ++ sps ++ (w ++ [])).set (pre ++ sps ++ w).length 0 =
        pre ++ sps ++ (w ++ []) :=
        List.set_eq_of_length_le (by simp)
      have hcstr : cstr (pre ++ sps ++ (w ++ [])) (pre ++ sps).length = w :=
        cstr_append (pre ++ sps) h0w rfl
      rw [hset, hcstr, List.append_nil, words_of_word hempty hw, pushAll]
      cases a.push argvLen argbufLen w with
      | error err => rfl
      | ok a => rfl
    · have hc : isspace c = true := hrest c rfl
      have hset : (pre ++ sps ++ (w ++ c :: rest)).set (pre ++ sps ++ w).length 0 = pre ++ sps ++
        (w ++ 0 :: rest) := by
        rw [← List.append_assoc, List.set_append_right _ _ (Nat.le_refl _), Nat.sub_self,
          List.set_cons_zero,
          List.append_assoc]
      have hcstr : cstr (pre ++ sps ++ (w ++ 0 :: rest)) (pre ++ sps).length = w :=
        cstr_append (pre ++ sps) h0w rfl
      have hne : decide ((c :: rest).head?.getD 0 = 0) = false := decide_eq_false fun h : c = 0 =>
        h0 (by simp [h])
      rw [hset, hcstr, words_append_space hc, words_of_word hempty hw,
        List.singleton_append, pushAll]
      cases a.push argvLen argbufLen w with
      | error err => rfl
      | ok a =>
        dsimp only
        have hih :=
          @ih (pre ++ sps ++ w ++ [0]) rest a (fun h => h0 (by simp [h])) (by simp at hlen; omega)
        have hpre : pre ++ sps ++ (w ++ 0 :: rest) = pre ++ sps ++ w ++ [0] ++ rest := by simp
        have hlast : (pre ++ sps ++ w).length + 1 = (pre ++ sps ++ w ++ [0]).length := by
          conv_rhs => rw [List.length_append]
          rfl
        rw [hne, if_neg Bool.false_ne_true, hpre, hlast, hih]

theorem makeArgVector_eq {cmd : List UInt8} {firstArg : Option (List UInt8)} (hcmd : 0 ∉ cmd)
    (harg : ∀ s, firstArg = some s → 0 ∉ s) (argbuf : Nat → UInt8) :
    makeArgVector cmd firstArg argvLen argbufLen argbuf =
      some (pushAll argvLen argbufLen ⟨[], argbuf, 0⟩ (arguments cmd firstArg)) := by
  have hcstr : cstr cmd 0 = cmd := by simpa using cstr_zero (r := []) hcmd rfl
  rw [makeArgVector, hcstr, arguments, pushAll]
  cases ArgVector.push argvLen argbufLen ⟨[], argbuf, 0⟩ cmd with
  | error err => rfl
  | ok a =>
    cases firstArg with
    | none => rfl
    | some line =>
        exact @splitArgs_eq argvLen argbufLen _ [] line a (harg line rfl) (Nat.lt_succ_self _)

/-! ## What the vector holds -/

/-- The bytes of the strings with their terminators. -/
def needed : List (List UInt8) → Nat
  | [] => 0
  | s :: ss => s.length + 1 + needed ss

theorem needed_append (ss ss' : List (List UInt8)) :
    needed (ss ++ ss') = needed ss + needed ss' := by
  induction ss with
  | nil => simp [needed]
  | cons s ss ih => rw [List.cons_append, needed, needed, ih, Nat.add_assoc (s.length + 1)]

/-- The pointers lead to copies of the strings in the first `argbufLen` bytes, one behind the
other. -/
structure ArgVector.Copies (argbufLen : Nat) (a : ArgVector)
    (strings : List (List UInt8)) : Prop where
  argc : a.argc = strings.length
  copy : ∀ (k : Nat) s off, strings[k]? = some s → a.argv[k]? = some off →
    off + s.length < argbufLen ∧ ∀ i, i ≤ s.length → a.argbuf (off + i) = s.getD i 0
  apart : ∀ (j k : Nat) s off off', j < k → strings[j]? = some s → a.argv[j]? = some off →
    a.argv[k]? = some off' →
    off + s.length < off'

/-- The pushed strings fill `argbuf` from its start. -/
structure ArgVector.Holds (a : ArgVector) (strings : List (List UInt8)) : Prop where
  argc : a.argc = strings.length
  argv : ∀ k, k < strings.length → a.argv[k]? = some (needed (strings.take k))
  index : a.argbufIndex = needed strings
  copy : ∀ (k : Nat) s i, strings[k]? = some s → i ≤ s.length →
    a.argbuf (needed (strings.take k) + i) = s.getD i 0

variable {strings more : List (List UInt8)}

theorem needed_take_succ {k : Nat} (hk : strings[k]? = some s) :
    needed (strings.take (k + 1)) = needed (strings.take k) + (s.length + 1) := by
  rw [List.take_add_one, hk, Option.toList_some, needed_append, needed, needed, Nat.add_zero]

theorem needed_take_le (strings : List (List UInt8)) {j k : Nat} (hjk : j ≤ k) :
    needed (strings.take j) ≤ needed (strings.take k) := by
  obtain ⟨t, ht⟩ := List.take_prefix_take_left hjk (l := strings)
  rw [← ht, needed_append]
  exact Nat.le_add_right _ _

namespace ArgVector.Holds

theorem copies (h : a.Holds strings) (hfit : needed strings ≤ argbufLen) :
    a.Copies argbufLen strings := by
  have hoff : ∀ {k off : Nat}, a.argv[k]? = some off → off = needed (strings.take k) :=
    fun {k off} hk => by
    have hlt : k < strings.length := by
      rw [← h.argc]
      exact (List.getElem?_eq_some_iff.1 hk).1
    exact Option.some.inj (hk.symm.trans (h.argv k hlt))
  refine ⟨h.argc, fun k s off hs hk => ?_, fun j k s off off' hjk hs hj hk => ?_⟩
  · obtain rfl := hoff hk
    have hle := needed_take_le strings (Nat.succ_le_of_lt (List.getElem?_eq_some_iff.1 hs).1)
    rw [needed_take_succ hs, List.take_length] at hle
    exact ⟨by omega, fun i hi => h.copy k s i hs hi⟩
  · obtain rfl := hoff hj
    obtain rfl := hoff hk
    have hle := needed_take_le strings (Nat.succ_le_of_lt hjk)
    rw [needed_take_succ hs] at hle
    omega

theorem push (h : a.Holds strings) (hargc : strings.length < argvLen)
    (hroom : needed strings < argbufLen)
    (s : List UInt8) : ∃ a', a.push argvLen argbufLen s = .ok a' ∧ a'.Holds (strings ++ [s]) := by
  refine ⟨_, if_neg (by rw [h.argc, h.index]; omega), ?_, fun k hk => ?_, ?_, fun k t i ht hi => ?_⟩
  · have := h.argc
    simp only [ArgVector.argc] at this
    simp [ArgVector.argc, this]
  · rw [List.length_append, List.length_singleton] at hk
    rcases Nat.lt_succ_iff_lt_or_eq.1 hk with hk | rfl
    · rw [List.getElem?_append_left (by have := h.argc; rw [ArgVector.argc] at this; omega),
        List.take_append_of_le_length (Nat.le_of_lt hk)]
      exact h.argv k hk
    · have := h.argc
      rw [ArgVector.argc] at this
      rw [← this, List.getElem?_concat_length, this, List.take_left, h.index]
  · rw [needed_append, h.index, needed, needed, Nat.add_zero]
  · rcases Nat.lt_or_ge k strings.length with hk | hk
    · rw [List.getElem?_append_left hk] at ht
      rw [List.take_append_of_le_length (Nat.le_of_lt hk)]
      have hle := needed_take_le strings (Nat.succ_le_of_lt hk)
      rw [needed_take_succ ht, List.take_length] at hle
      have hlt : needed (strings.take k) + i < a.argbufIndex := by
        rw [h.index]
        omega
      dsimp only
      rw [store_of_not_mem (.inl hlt), h.copy k t i ht hi]
    · rw [List.getElem?_append_right hk] at ht
      obtain ⟨hk', rfl⟩ := List.getElem?_eq_some_iff.1 ht
      obtain rfl : k = strings.length := by simp only [List.length_singleton] at hk'; omega
      rw [List.getElem_singleton] at hi ⊢
      have hmem : a.argbufIndex ≤ a.argbufIndex + i ∧ a.argbufIndex + i < a.argbufIndex +
        (s.length + 1) := by omega
      rw [List.take_left, ← h.index]
      dsimp only
      rw [store_of_mem hmem, Nat.add_sub_cancel_left]

end ArgVector.Holds

/-- With room for the strings that are copied, only the length of `argv` ends the pushing. -/
theorem pushAll_spec : ∀ {more strings a}, ArgVector.Holds a strings → strings.length ≤ argvLen →
    needed ((strings ++ more).take argvLen) ≤ argbufLen → ∃ a', pushAll argvLen argbufLen a more =
      (a', if (strings ++ more).length ≤ argvLen then .kSuccess else .kFull) ∧
        a'.Holds ((strings ++ more).take argvLen) := by
  intro more
  induction more with
  | nil =>
    intro strings a h hlen _
    refine ⟨a, ?_, ?_⟩
    · rw [List.append_nil, if_pos hlen, pushAll]
    · rwa [List.append_nil, List.take_of_length_le hlen]
  | cons s more ih =>
    intro strings a h hlen hfit
    have happ : strings ++ s :: more = strings ++ [s] ++ more := List.append_cons ..
    rcases Nat.lt_or_ge strings.length argvLen with hlt | hge
    · have hroom : needed strings < argbufLen := by
        have hle := needed_take_le (strings ++ s :: more) (Nat.succ_le_of_lt hlt)
        rw [happ, List.take_append_of_le_length (by simp), List.take_of_length_le (by simp),
          needed_append, needed] at hle
        rw [happ] at hfit
        omega
      obtain ⟨a', hpush, h'⟩ := h.push hlt hroom s
      rw [pushAll, hpush, happ]
      exact ih h' (by rw [List.length_append]; exact hlt) (happ ▸ hfit)
    · -- the vector is full
      have hfull : a.push argvLen argbufLen s = .error .kFull :=
        if_pos (.inl (by rw [h.argc]; exact hge))
      refine ⟨a, ?_, ?_⟩
      · rw [pushAll, hfull, if_neg]
        rw [List.length_append, List.length_cons]
        omega
      · rwa [List.take_append_of_le_length hge, List.take_of_length_le (by omega)]

/-- Without whitespace a word each, as many as `argv` has room for. -/
theorem makeArgVector_splits {cmd : List UInt8} {firstArg : Option (List UInt8)} (hcmd : 0 ∉ cmd)
    (harg : ∀ s, firstArg = some s → 0 ∉ s)
    (hfit : needed ((arguments cmd firstArg).take argvLen) ≤ argbufLen)
    (argbuf : Nat → UInt8) :
    (1 + (words (firstArg.getD [])).length ≤ argvLen → ∃ a,
      makeArgVector cmd firstArg argvLen argbufLen argbuf = some (a, .kSuccess) ∧
      a.argc = 1 + (words (firstArg.getD [])).length ∧
        a.Copies argbufLen (cmd :: words (firstArg.getD []))) ∧
    (argvLen < 1 + (words (firstArg.getD [])).length → ∃ a,
      makeArgVector cmd firstArg argvLen argbufLen argbuf = some (a, .kFull) ∧ a.argc = argvLen ∧
      a.Copies argbufLen ((cmd :: words (firstArg.getD [])).take argvLen)) := by
  have hempty : ArgVector.Holds ⟨[], argbuf, 0⟩ [] := by
    refine ⟨rfl, fun k hk => absurd hk (Nat.not_lt_zero k), rfl, fun k s i hs => ?_⟩
    rw [List.getElem?_nil] at hs
    cases hs
  obtain ⟨a, hrun, hholds⟩ := pushAll_spec hempty (Nat.zero_le argvLen) hfit
  rw [List.nil_append] at hrun hholds
  have hlength : (cmd :: words (firstArg.getD [])).length = 1 + (words (firstArg.getD [])).length :=
    Nat.add_comm ..
  rw [makeArgVector_eq hcmd harg, arguments, hrun]
  have hcopies := hholds.copies hfit
  constructor
  · intro hle
    rw [List.take_of_length_le (by omega)] at hcopies
    exact ⟨a, by rw [if_pos (by omega)], hcopies.argc.trans hlength, hcopies⟩
  · intro hlt
    refine ⟨a, by rw [if_neg (by omega)], ?_, hcopies⟩
    rw [hcopies.argc, List.length_take]
    omega

/-- `"a"` with `" b  c"`. -/
theorem makeArgVector_splits_abc : ∃ a,
    makeArgVector [0x61] (some [0x20, 0x62, 0x20, 0x09, 0x63]) 32 3840 (fun _ => 0) =
      some (a, .kSuccess) ∧ a.argc = 3 ∧
      a.Copies 3840 [[0x61], [0x62], [0x63]] := by
  have hwords : words [0x20, 0x62, 0x20, 0x09, 0x63] = [[0x62], [0x63]] := by decide
  have h := @makeArgVector_splits 32 3840 [0x61] (some [0x20, 0x62, 0x20, 0x09, 0x63]) (by decide)
    (by simp) (by decide)
    fun _ => 0
  rw [Option.getD_some, hwords] at h
  exact h.1 (by decide)

end Moxia.Terminal
