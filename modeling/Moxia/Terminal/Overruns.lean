import Moxia.Fat.Small
import Moxia.Paging.Mapping
import Moxia.Terminal.Buffers
import Mathlib.Data.Nat.Digits.Lemmas

/-!
# Overruns of fixed buffers

No function looks at the size of the buffer it writes to, except that `MakeArgVector` does not start
an argument behind its buffer. So a path given to `open` and a command line leave all buffers of
fixed size whole exactly if the elements, arguments and words in them are as short as the buffers
ask for (`buffers_hold_iff`).
-/

namespace Moxia

open Lib

/-- The bytes are inside of the buffer, and `MakeArgVector` says so where the arguments do not
fit. -/
def BufferUse.Fits : BufferUse → Prop
  | pathElem n => n ≤ 13
  | name n => n ≤ 13
  | argv n => n ≤ 32
  | argbuf n => n ≤ 3840
  | makeArgVector cmd firstArg err =>
    32 < (Terminal.arguments cmd firstArg).length ∨
      3840 < Terminal.needed (Terminal.arguments cmd firstArg) → err = .kFull
  | printToFD n => n ≤ 128
  | printk n => n ≤ 1024

/-! ## Paths -/

namespace Fat.Volume

/-- The elements that the walk gets to have at most 12 characters each. -/
def ElemsFit (v : Volume) : Nat → List Elem → Prop
  | _, [] => True
  | dir, e :: es => e.name.length ≤ kMaxPathElem ∧
    ∀ s, v.scanElem dir e = some (some s) → v.attr s = kDirectory → v.ElemsFit (v.firstCluster s) es

def PathFits (v : Volume) (path : List UInt8) : Prop := v.ElemsFit 0 (elems path)

variable {v : Volume} {dir fuel : Nat} {path name : List UInt8} {e : Elem} {es : List Elem}
    {slots : List Slot} {s : Slot}

theorem findFileLoopUses_result :
    (v.findFileLoopUses fuel path dir).result = v.findFileLoop fuel path dir := by
  induction fuel generalizing path dir with
  | zero => rfl
  | succ fuel ih =>
    rw [findFileLoopUses, findFileLoop]
    rcases nextPathElement (strip path) with ⟨name, next⟩
    dsimp only
    rw [Log.bind_result]
    dsimp only
    split
    · refine congrArg _ (funext fun r => ?_)
      rcases r with _ | s
      · rfl
      · rcases next with _ | next
        · rfl
        · dsimp only
          split
          · exact ih
          · rfl
    · rfl

theorem findFileUses_result (v : Volume) (path : List UInt8) :
    (v.findFileUses path).result = v.findFile path :=
  findFileLoopUses_result

/-- One element: it fits, and so does what is behind it if it is a directory. -/
theorem findFileLoopUses_succ {next : Option (List UInt8)}
    (h : nextPathElement (strip path) = (name, next)) :
    (∀ u ∈ (v.findFileLoopUses (fuel + 1) path dir).entries, u.Fits) ↔ name.length ≤ kMaxPathElem ∧
      ∀ s rest, v.scanElem dir ⟨path.head? = some slash, name⟩ = some (some s) →
        next = some rest → rest ≠ [] →
        v.attr s = kDirectory → ∀ u ∈ (v.findFileLoopUses fuel rest (v.firstCluster s)).entries,
          u.Fits := by
  have hscan : v.scanElem dir ⟨path.head? = some slash, name⟩ = if name.length ≤ kMaxPathElem then
      v.scanDir name (if path.head? = some slash ∨ dir = 0 then v.rootCluster else dir)
        (v.numClusters + 1) else none := by
    simp only [scanElem, startDir, decide_eq_true_eq]
  rw [findFileLoopUses, h, Log.forall_bind, List.forall_mem_singleton, hscan]
  refine and_congr Nat.succ_le_succ_iff ⟨fun hall s rest hs hnext hrest hdir => ?_,
    fun hall r hr => ?_⟩
  · have := hall (some s) hs
    obtain rfl := hnext
    dsimp only at this
    rwa [if_pos ⟨hdir, hrest⟩] at this
  · rcases r with _ | s
    · exact List.forall_mem_nil _
    rcases next with _ | rest
    · exact List.forall_mem_nil _
    dsimp only
    split
    · rename_i hand
      exact hall s rest hr rfl hand.2 hand.1
    · exact List.forall_mem_nil _

theorem findFileLoopUses_fits : path.length < fuel →
    ((∀ u ∈ (v.findFileLoopUses fuel path dir).entries, u.Fits) ↔
      v.ElemsFit dir (parse fuel path).1) := by
  induction fuel generalizing path dir with
  | zero => exact fun h => absurd h (Nat.not_lt_zero _)
  | succ fuel ih =>
    intro hfuel
    rcases hnext : nextPathElement (strip path) with ⟨name, _ | rest⟩
    · rw [findFileLoopUses_succ hnext, parse, hnext]
      exact and_congr_right fun _ =>
        iff_of_true (fun _ _ _ h => absurd h.symm (Option.some_ne_none _)) fun _ _ _ => trivial
    rw [findFileLoopUses_succ hnext, parse, hnext]
    rcases rest with _ | ⟨c, rest⟩
    · exact and_congr_right fun _ =>
        iff_of_true (fun _ _ _ h hne => absurd (Option.some.inj h).symm hne) fun _ _ _ => trivial
    · have hlen : (c :: rest).length < fuel := by
        have := (nextPathElement_append hnext []).2
        have := strip_length path
        omega
      refine and_congr_right fun _ => ⟨fun h s hs hdir => ?_, fun h s rest' hs hrest _ hdir => ?_⟩
      · exact (ih hlen).1 (h s (c :: rest) hs rfl (List.cons_ne_nil _ _) hdir)
      · obtain rfl := Option.some.inj hrest
        exact (ih hlen).2 (h s hs hdir)

theorem findFileUses_fits : (∀ u ∈ (v.findFileUses path).entries, u.Fits) ↔ v.PathFits path :=
  findFileLoopUses_fits (Nat.lt_succ_self _)

theorem ElemsFit.init (h : v.ElemsFit dir (es ++ [e])) : v.ElemsFit dir es := by
  induction es generalizing dir with
  | nil => trivial
  | cons e' es ih => exact ⟨h.1, fun s hs hd => ih (h.2 s hs hd)⟩

theorem createFileUses_fits (h : v.PathFits path) :
    ∀ u ∈ (v.createFileUses path).entries, u.Fits := by
  rw [createFileUses]
  dsimp only
  split
  · exact List.forall_mem_nil _
  · rename_i hno
    rw [not_or] at hno
    rcases (elems_splitPath fun hmem hnil => hno.1 ⟨hmem, hnil⟩).2 with ⟨hparent, -⟩ | ⟨-, helems⟩
    · exact absurd hparent hno.2
    · rw [PathFits, helems] at h
      exact findFileUses_fits.2 h.init

/-! ## What always fits -/

theorem formatNameUse_fits (v : Volume) (s : Slot) : (v.formatNameUse s).Fits := by
  have := v.formatName_length s
  rw [kMaxPathElem] at this
  exact Nat.max_le.2 ⟨by decide, by omega⟩

theorem formatted_formatName (v : Volume) (s : Slot) (text : List UInt8) :
    formatted [v.formatName s, text] ≤ 13 + text.length := by
  have := v.formatName_length s
  rw [kMaxPathElem] at this
  rw [formatted, List.flatten_cons, List.flatten_cons, List.flatten_nil, List.append_nil,
    List.length_append]
  omega

theorem listSlotsUses_fits (v : Volume) (slots : List Slot) :
    ∀ u ∈ v.listSlotsUses slots, u.Fits := by
  induction slots with
  | nil => exact List.forall_mem_nil _
  | cons s slots ih =>
    rw [listSlotsUses]
    split
    · exact List.forall_mem_nil _
    split
    · exact ih
    split
    · exact ih
    · have hprintk : (BufferUse.printk (formatted [v.formatName s, chars "\n"])).Fits :=
        Nat.le_trans (v.formatted_formatName s _) (by decide)
      exact List.forall_mem_append.2
        ⟨List.forall_mem_cons.2 ⟨v.formatNameUse_fits s, List.forall_mem_singleton.2 hprintk⟩, ih⟩

theorem listAllEntriesUses_fits (v : Volume) (fuel dirCluster : Nat) :
    ∀ u ∈ (v.listAllEntriesUses dirCluster fuel).entries, u.Fits := by
  induction fuel generalizing dirCluster with
  | zero => exact List.forall_mem_nil _
  | succ fuel ih =>
    rw [listAllEntriesUses]
    split
    · exact List.forall_mem_nil _
    split
    · dsimp only
      split
      · exact v.listSlotsUses_fits _
      · exact Log.forall_bind.2 ⟨v.listSlotsUses_fits _, fun next _ => ih next⟩
    · exact List.forall_mem_nil _

theorem catLoopUses_fits (v : Volume) (fuel cluster remainBytes : Nat) :
    ∀ u ∈ (v.catLoopUses fuel cluster remainBytes).entries, u.Fits := by
  induction fuel generalizing cluster remainBytes with
  | zero => exact List.forall_mem_nil _
  | succ fuel ih =>
    rw [catLoopUses]
    split
    · split
      · refine Log.forall_bind.2 ⟨fun u hu => ?_, fun next _ => ih next _⟩
        simp only [List.map_map, List.mem_map] at hu
        obtain ⟨i, -, rfl⟩ := hu
        exact (by decide : 2 ≤ 128)
      · exact List.forall_mem_nil _
    · exact List.forall_mem_nil _

end Fat.Volume

/-! ## Arguments -/

namespace Terminal

open Fat

/-- An argument that starts in front of the end of `argbuf` also ends there. -/
def ArgsFit (strings : List (List UInt8)) : Prop := ∀ k, k < 32 → k < strings.length →
  needed (strings.take k) < 3840 → needed (strings.take (k + 1)) ≤ 3840

/-- What `MakeArgVector` returns fits. -/
def ArgVector.Good (argvLen argbufLen : Nat) (strings : List (List UInt8))
    (r : ArgVector × Moxia.Error) : Prop :=
  r.1.argc ≤ argvLen ∧ r.1.argbufIndex ≤ argbufLen ∧
    (argvLen < strings.length ∨ argbufLen < needed strings → r.2 = .kFull)

theorem push_of_not_full {argvLen argbufLen : Nat} {a : ArgVector}
    (h : ¬(argvLen ≤ a.argc ∨ argbufLen ≤ a.argbufIndex))
    (s : List UInt8) : ∃ a', a.push argvLen argbufLen s = .ok a' ∧ a'.argc = a.argc + 1 ∧
      a'.argbufIndex = a.argbufIndex + (s.length + 1) := by
  refine ⟨_, if_neg h, ?_, rfl⟩
  rw [ArgVector.argc, List.length_append]
  rfl

theorem le_argbufIndex_pushAll (argvLen argbufLen : Nat) (a : ArgVector)
    (more : List (List UInt8)) :
    a.argbufIndex ≤ (pushAll argvLen argbufLen a more).1.argbufIndex := by
  induction more generalizing a with
  | nil => exact Nat.le_refl _
  | cons s more ih =>
    by_cases hfull : argvLen ≤ a.argc ∨ argbufLen ≤ a.argbufIndex
    · have hpush : a.push argvLen argbufLen s = .error .kFull := if_pos hfull
      rw [pushAll, hpush]
    · obtain ⟨a', hpush, -, hindex⟩ := push_of_not_full hfull s
      rw [pushAll, hpush]
      have := ih a'
      dsimp only
      omega

/-- Pushing strings on goes well exactly if no string that is started runs over the end. -/
theorem pushAll_good {argvLen argbufLen : Nat} {more strings : List (List UInt8)} {a : ArgVector}
    (hargc : a.argc = strings.length) (hindex : a.argbufIndex = needed strings)
    (hlen : strings.length ≤ argvLen)
    (hneeded : needed strings ≤ argbufLen) :
    ArgVector.Good argvLen argbufLen (strings ++ more) (pushAll argvLen argbufLen a more) ↔
      ∀ k, strings.length ≤ k → k < argvLen → k < (strings ++ more).length →
        needed ((strings ++ more).take k) < argbufLen → needed ((strings ++ more).take (k + 1)) ≤
          argbufLen := by
  induction more generalizing strings a with
  | nil =>
    rw [List.append_nil, pushAll, ArgVector.Good]
    dsimp only
    exact iff_of_true ⟨by omega, by omega, by omega⟩ fun k hk _ hlt => absurd hlt (Nat.not_lt.2 hk)
  | cons s more ih =>
    have happ : strings ++ s :: more = strings ++ [s] ++ more := List.append_cons ..
    have hstart : needed ((strings ++ s :: more).take strings.length) = needed strings := by
      rw [List.take_left]
    have hget : (strings ++ s :: more)[strings.length]? = some s := by
      rw [List.getElem?_append_right (Nat.le_refl _), Nat.sub_self]
      rfl
    have hend : needed ((strings ++ s :: more).take (strings.length + 1)) = needed strings +
      (s.length + 1) := by
      rw [needed_take_succ hget, hstart]
    by_cases hfull : argvLen ≤ a.argc ∨ argbufLen ≤ a.argbufIndex
    · -- nothing is pushed any more
      have hpush : a.push argvLen argbufLen s = .error .kFull := if_pos hfull
      rw [pushAll, hpush, ArgVector.Good]
      dsimp only
      refine iff_of_true ⟨by omega, by omega, fun _ => rfl⟩ fun k hk hargv _ hbuf => ?_
      have := needed_take_le (strings ++ s :: more) hk
      omega
    · obtain ⟨a', hpush, hargc', hindex'⟩ := push_of_not_full hfull s
      have hlen' : (strings ++ [s]).length = strings.length + 1 := List.length_append
      have hneeded' : needed (strings ++ [s]) = needed strings + (s.length + 1) := needed_append ..
      rw [pushAll, hpush]
      dsimp only
      by_cases hover : needed (strings ++ [s]) ≤ argbufLen
      · rw [happ, ih (by omega) (by omega) (by omega) hover, ← happ, hlen']
        refine ⟨fun h k hk => ?_, fun h k hk => h k (by omega)⟩
        rcases Nat.eq_or_lt_of_le hk with rfl | hk
        · intros
          omega
        · exact h k hk
      · -- the string runs over the end
        refine iff_of_false (fun h => ?_) fun h => ?_
        · have := le_argbufIndex_pushAll argvLen argbufLen a' more
          have := h.2.1
          omega
        · have := h strings.length (Nat.le_refl _) (by omega)
            (by rw [happ, List.length_append]; omega) (by omega)
          omega

theorem makeArgVectorUses_fits (m : Machine) {cmd : List UInt8} {arg : Option (List UInt8)}
    (hcmd : 0 ∉ cmd)
    (harg : ∀ s, arg = some s → 0 ∉ s) : (∀ u ∈ m.makeArgVectorUses cmd arg, u.Fits) ↔
    ArgsFit (arguments cmd arg) := by
  have hgood := @pushAll_good 32 3840 (arguments cmd arg) [] ⟨[], m.argbuf, 0⟩ rfl rfl
    (Nat.zero_le _) (Nat.zero_le _)
  rw [Machine.makeArgVectorUses, makeArgVector_eq hcmd harg, List.forall_mem_cons,
    List.forall_mem_cons,
    List.forall_mem_singleton]
  refine hgood.trans ⟨fun h k => h k (Nat.zero_le k), fun h k _ => h k⟩

/-! ## Commands -/

namespace Machine

/-- The argument of `echo` and a terminator. -/
def EchoFits (arg : Option (List UInt8)) : Prop :=
  arg.map (List.take 2) ≠ some (chars "$?") → (percentS arg).length ≤ 127

variable (m : Machine)

def LsFits (v : Volume) (arg : Option (List UInt8)) : Prop := m.string arg ≠ [] →
  v.PathFits (m.string arg) ∧
  (∀ postSlash, v.findFile (m.string arg) = some (none, postSlash) → (percentS arg).length ≤ 98) ∧
  -- the name of a plain file is left out of the call
  ∀ s, v.findFile (m.string arg) = some (some s, false) → v.attr s ≠ kDirectory →
    m.missing.chars.length ≤ 126

def CatFits (v : Volume) (arg : Option (List UInt8)) : Prop :=
  v.PathFits (m.string arg) ∧
  ∀ postSlash, v.findFile (m.string arg) = some (none, postSlash) → (percentS arg).length ≤ 112

/-- The file is run: `ExecuteFile` gets to `MakeArgVector`. -/
def Starts (v : Volume) (s : Slot) : Prop :=
  ∃ bytes size, v.loadFile (v.fileSize s) s = some (bytes, size) ∧
    ∃ st, ((m.fileBuf v s).startFile (m.filled v s bytes)).result = some (.ok (), st)

def OtherFits (v : Volume) (cmd : List UInt8) (arg : Option (List UInt8)) : Prop :=
  v.PathFits cmd ∧
  (∀ postSlash, v.findFile cmd = some (none, postSlash) → cmd.length ≤ 1003) ∧
  ∀ s postSlash, v.findFile cmd = some (some s, postSlash) →
    (v.attr s = kDirectory ∨ postSlash = false) → m.Starts v s →
    ArgsFit (arguments cmd arg)

def CommandFits (v : Volume) (cmd : List UInt8) (arg : Option (List UInt8)) : Prop :=
  if cmd = chars "echo" then EchoFits arg
  else if cmd = chars "clear" then True
  else if cmd = chars "ls" then m.LsFits v arg
  else if cmd = chars "cat" then m.CatFits v arg
  else m.OtherFits v cmd arg

def RedirectFits : Descriptor Unit → Prop
  | .file redirDest => m.volume.PathFits redirDest
  | _ => True

/-- The command is run after the redirection, and finds this volume. -/
def GoesOnWith : Descriptor Unit → Volume → Prop
  | .file redirDest, v =>
    (∃ s, m.volume.findFile redirDest = some (some s, false) ∧ m.volume.attr s ≠ kDirectory ∧
      v = m.volume) ∨
    ∃ postSlash s, m.volume.findFile redirDest = some (none, postSlash) ∧
      m.volume.createFile redirDest = some (.ok (v, s))
  | _, v => v = m.volume

/-- The words and texts that the line is cut into fit. -/
def LineFits (line : List UInt8) : Prop :=
  let setup := executeCommand line (Vector.replicate 3 ())
  let out := getElem setup.files 1 stdout_lt
  m.RedirectFits out ∧ ∀ v, m.GoesOnWith out v → m.CommandFits v setup.cmd setup.arg

end Machine

/-- What is written for the path or the line fits into the buffers. -/
def Input.Fits (m : Machine) : Input → Prop
  | .open path _ => path.chars ≠ chars "@stdin" → m.volume.PathFits path.chars
  | .executeCommand line => m.LineFits line

variable {m : Machine} {v : Volume} {cmd : List UInt8} {arg : Option (List UInt8)}

theorem find_bind_fits {path : List UInt8} {f : Option Slot × Bool → Buffers Unit} :
    (∀ u ∈ (Log.bind (v.findFileUses path) f).entries, u.Fits) ↔ v.PathFits path ∧
      (∀ postSlash, v.findFile path = some (none, postSlash) →
        ∀ u ∈ (f (none, postSlash)).entries, u.Fits) ∧
      ∀ s postSlash, v.findFile path = some (some s, postSlash) →
        ∀ u ∈ (f (some s, postSlash)).entries, u.Fits := by
  rw [Log.forall_bind, Volume.findFileUses_fits, Volume.findFileUses_result]
  refine and_congr_right fun _ => ⟨fun h => ⟨fun _ => h _, fun _ _ => h _⟩, fun h => ?_⟩
  rintro ⟨_ | s, postSlash⟩ hfind
  · exact h.1 postSlash hfind
  · exact h.2 s postSlash hfind

theorem printToFD_fits {pieces : List (List UInt8)} :
    (BufferUse.printToFD (formatted pieces)).Fits ↔ pieces.flatten.length ≤ 127 :=
  Nat.succ_le_succ_iff

theorem printk_fits {pieces : List (List UInt8)} :
    (BufferUse.printk (formatted pieces)).Fits ↔ pieces.flatten.length ≤ 1023 :=
  Nat.succ_le_succ_iff

@[simp] theorem flatten_one (s : List UInt8) : [s].flatten.length = s.length := by simp

@[simp] theorem flatten_two (s t : List UInt8) :
    [s, t].flatten.length = s.length + t.length := by simp

@[simp] theorem flatten_three (s t r : List UInt8) :
    [s, t, r].flatten.length = s.length + t.length + r.length := by
  simp [Nat.add_assoc]

/-- A sign and ten digits. -/
theorem percentD_length (x : BitVec 32) : (percentD x).length ≤ 11 := by
  have hdigits : (Nat.digits 10 x.toInt.natAbs).length ≤ 10 := by
    rw [Nat.digits_length_le_iff (by decide)]
    have := x.toInt_lt
    have := x.le_toInt
    omega
  have hsign : (if x.toInt < 0 then chars "-" else []).length ≤ 1 := by split <;> decide
  have hrest : (if x.toInt = 0 then chars "0" else (Nat.digits 10 x.toInt.natAbs).reverse.map
      fun d => UInt8.ofNat (0x30 + d)).length ≤
      10 := by
    split
    · decide
    · rwa [List.length_map, List.length_reverse]
  rw [percentD, List.length_append]
  exact Nat.add_le_add hsign hrest

theorem name_length (err : Moxia.Error) : err.name.length ≤ 16 := by
  cases err <;> decide

theorem echoUses_fits (m : Machine) : (∀ u ∈ m.echoUses arg, u.Fits) ↔ Machine.EchoFits arg := by
  rw [Machine.echoUses, Machine.EchoFits, List.forall_mem_cons, List.forall_mem_singleton]
  refine (and_iff_left (by decide : 2 ≤ 128)).trans ?_
  split
  · rename_i h
    refine iff_of_true ?_ fun hne => absurd h hne
    rw [printToFD_fits, flatten_one]
    exact (percentD_length _).trans (by decide)
  · rename_i h
    rw [printToFD_fits, flatten_one, imp_iff_right h]

theorem lsUses_fits (m : Machine) : (∀ u ∈ (m.lsUses v arg).entries, u.Fits) ↔ m.LsFits v arg := by
  rw [Machine.lsUses, Machine.LsFits]
  split
  · rename_i hnil
    exact iff_of_true (v.listAllEntriesUses_fits _ _) fun hne => absurd hnil hne
  rename_i hne
  have hpre : (chars "Not such file or directory: ").length = 28 := by decide
  have hpost : (chars "\n").length = 1 := by decide
  rw [find_bind_fits, imp_iff_right hne]
  refine and_congr_right fun _ =>
    and_congr (forall₂_congr fun postSlash _ => ?_) (forall_congr' fun s => ?_)
  · rw [List.forall_mem_singleton, printToFD_fits, flatten_three]
    omega
  · have hname := Volume.formatNameUse_fits v s
    by_cases hdir : v.attr s = kDirectory
    · refine iff_of_true (fun postSlash _ => ?_) fun _ hne => absurd hdir hne
      dsimp only
      rw [if_pos hdir]
      exact v.listAllEntriesUses_fits _ _
    · have hmissing :
          (∀ u ∈ [v.formatNameUse s, BufferUse.printToFD (formatted [m.missing.chars, chars "\n"])],
          u.Fits) ↔
          m.missing.chars.length ≤ 126 := by
        rw [List.forall_mem_cons, List.forall_mem_singleton, and_iff_right hname,
          printToFD_fits, flatten_two]
        omega
      have hnot :
          ∀ u ∈ [v.formatNameUse s,
          BufferUse.printToFD (formatted [v.formatName s, chars " is not a directory\n"])],
          u.Fits :=
        List.forall_mem_cons.2 ⟨hname,
          List.forall_mem_singleton.2 ((v.formatted_formatName s _).trans (by decide))⟩
      rw [Bool.forall_bool, imp_iff_right hdir, ← hmissing]
      dsimp only
      rw [if_neg hdir, if_neg hdir]
      exact and_iff_left fun _ => hnot

theorem catUses_fits (m : Machine) : (∀ u ∈ (m.catUses v arg).entries, u.Fits) ↔
    m.CatFits v arg := by
  have hpre : (chars "no such file: ").length = 14 := by decide
  have hpost : (chars "\n").length = 1 := by decide
  rw [Machine.catUses, Machine.CatFits, find_bind_fits]
  refine and_congr_right fun _ =>
    (and_iff_left fun s _ _ => v.catLoopUses_fits _ _ _).trans (forall₂_congr fun _ _ => ?_)
  rw [List.forall_mem_singleton, printToFD_fits, flatten_three]
  omega

theorem executeFileUses_fits (m : Machine) {s : Slot} (hcmd : 0 ∉ cmd)
    (harg : ∀ s, arg = some s → 0 ∉ s) :
    (∀ u ∈ (m.executeFileUses v s cmd arg).entries, u.Fits) ↔
      (m.Starts v s → ArgsFit (arguments cmd arg)) := by
  rw [Machine.executeFileUses, Log.forall_bind, Machine.Starts]
  refine (and_iff_right (List.forall_mem_nil _)).trans ⟨?_, ?_⟩
  · rintro h ⟨bytes, size, hload, st, hstart⟩
    have := h (bytes, size) hload
    dsimp only at this
    rw [hstart] at this
    exact (makeArgVectorUses_fits m hcmd harg).1 this
  · rintro h ⟨bytes, size⟩ hload
    dsimp only
    split
    · rename_i st hstart
      exact (makeArgVectorUses_fits m hcmd harg).2 (h ⟨bytes, size, hload, st, hstart⟩)
    · exact List.forall_mem_nil _

theorem otherUses_fits (m : Machine) (hcmd : 0 ∉ cmd) (harg : ∀ s, arg = some s → 0 ∉ s) :
    (∀ u ∈ (m.otherUses v cmd arg).entries, u.Fits) ↔ m.OtherFits v cmd arg := by
  have hpre : (chars "command not found: ").length = 19 := by decide
  have hpost : (chars "\n").length = 1 := by decide
  rw [Machine.otherUses, Machine.OtherFits, find_bind_fits]
  refine and_congr_right fun _ => and_congr (forall₂_congr fun postSlash _ => ?_)
    (forall_congr' fun s => forall₂_congr fun postSlash _ => ?_)
  · rw [List.forall_mem_singleton, printk_fits, flatten_three]
    omega
  · dsimp only
    split
    · rename_i h
      refine iff_of_true
        (List.forall_mem_cons.2 ⟨v.formatNameUse_fits s, List.forall_mem_singleton.2 ?_⟩) ?_
      · exact (v.formatted_formatName s _).trans (by decide)
      · rintro (hdir | hpost)
        · exact absurd hdir h.1
        · exact absurd (hpost.symm.trans h.2) Bool.false_ne_true
    · rename_i h
      have hruns : v.attr s = kDirectory ∨ postSlash = false := by
        rw [not_and_or, not_not, Bool.not_eq_true] at h
        exact h
      rw [imp_iff_right hruns, Log.forall_bind, executeFileUses_fits m hcmd harg]
      refine and_iff_left ?_
      rintro (err | ret) -
      · have := name_length err
        have hfailed : (chars "failed to exec file: ").length = 21 := by decide
        rw [List.forall_mem_singleton, printk_fits, flatten_three]
        omega
      · exact List.forall_mem_nil _

theorem commandUses_fits (m : Machine) (hcmd : 0 ∉ cmd) (harg : ∀ s, arg = some s → 0 ∉ s) :
    (∀ u ∈ (m.commandUses v cmd arg).entries, u.Fits) ↔ m.CommandFits v cmd arg := by
  rw [Machine.commandUses, Machine.CommandFits]
  split
  · exact echoUses_fits m
  split
  · exact iff_of_true (List.forall_mem_nil _) trivial
  split
  · exact lsUses_fits m
  split
  · exact catUses_fits m
  · exact otherUses_fits m hcmd harg

/-! ## Command lines -/

theorem redirectUses_fits (m : Machine) (out : Descriptor Unit) :
    (∀ u ∈ (m.redirectUses out).entries, u.Fits) ↔ m.RedirectFits out := by
  rcases out with _ | _ | redirDest
  · exact iff_of_true (List.forall_mem_nil _) trivial
  · exact iff_of_true (List.forall_mem_nil _) trivial
  rw [Machine.redirectUses, Machine.RedirectFits, Log.forall_bind, Volume.findFileUses_fits]
  refine and_iff_left_of_imp fun hpath => ?_
  rintro ⟨_ | s, postSlash⟩ -
  · refine Log.forall_bind.2 ⟨Volume.createFileUses_fits hpath, ?_⟩
    rintro (err | ⟨v, s⟩) -
    · have := name_length err.code
      have hpre : (chars "failed to create a redirect file: ").length = 34 := by decide
      have hpost : (chars "\n").length = 1 := by decide
      rw [List.forall_mem_singleton, printToFD_fits, flatten_three]
      omega
    · exact List.forall_mem_nil _
  · dsimp only
    split
    · exact List.forall_mem_singleton.2 (printToFD_fits.2 (by decide))
    · exact List.forall_mem_nil _

theorem redirectUses_result (m : Machine) (out : Descriptor Unit) :
    (m.redirectUses out).result = some (some v) ↔ m.GoesOnWith out v := by
  rcases out with _ | _ | redirDest
  · simp only [Machine.redirectUses, Machine.GoesOnWith, Option.some.injEq, eq_comm]
  · simp only [Machine.redirectUses, Machine.GoesOnWith, Option.some.injEq, eq_comm]
  rw [Machine.redirectUses, Machine.GoesOnWith, Log.bind_result, Volume.findFileUses_result]
  rcases m.volume.findFile redirDest with _ | ⟨_ | s, postSlash⟩
  · simp
  · rw [Option.bind_some]
    dsimp only
    rw [Log.bind_result, Volume.createFileUses]
    rcases hcreate : m.volume.createFile redirDest with _ | _ | ⟨v', s⟩ <;> simp
  · rw [Option.bind_some]
    dsimp only
    rcases postSlash with _ | _
    · by_cases hdir : m.volume.attr s = kDirectory
      · simp [hdir]
      · simpa [hdir] using eq_comm
    · simp

theorem cstr_noNul (line : List UInt8) (p : Nat) : 0 ∉ cstr line p := fun h => by
  have := List.mem_takeWhile_imp h
  simp at this

theorem executeCommandUses_fits (m : Machine) (line : List UInt8) :
    (∀ u ∈ (m.executeCommandUses line).entries, u.Fits) ↔ m.LineFits line := by
  have hcmd : 0 ∉ (executeCommand line (Vector.replicate 3 ())).cmd := cstr_noNul _ _
  have harg : ∀ s, (executeCommand line (Vector.replicate 3 ())).arg = some s → 0 ∉ s :=
    fun s hs => by
    obtain ⟨p, -, rfl⟩ := Option.map_eq_some_iff.1 hs
    exact cstr_noNul _ _
  have hwait : (chars "failed to wait finish: ").length = 23 := by decide
  have hpost : (chars "\n").length = 1 := by decide
  rw [Machine.executeCommandUses, Machine.LineFits, Log.forall_bind, redirectUses_fits]
  refine and_congr_right fun _ => ⟨fun h v hv => ?_, fun h => ?_⟩
  · exact (commandUses_fits m hcmd harg).1
      (Log.forall_bind.1 (h _ ((redirectUses_result m _).2 hv))).1
  · rintro (_ | v) hv
    · exact List.forall_mem_nil _
    refine Log.forall_bind.2
      ⟨(commandUses_fits m hcmd harg).2 (h v ((redirectUses_result m _).1 hv)), fun _ _ => ?_⟩
    split
    · have := name_length m.waitFinish
      rw [List.forall_mem_singleton, printk_fits, flatten_three]
      omega
    · exact List.forall_mem_nil _

theorem openUses_fits (m : Machine) (path : CString) (flags : BitVec 32) :
    (∀ u ∈ (m.openUses path flags).entries, u.Fits) ↔ (Input.open path flags).Fits m := by
  rw [Machine.openUses, Input.Fits]
  split
  · rename_i h
    exact iff_of_true (List.forall_mem_nil _) fun hne => absurd h hne
  · rename_i hne
    rw [find_bind_fits, imp_iff_right hne]
    refine and_iff_left_of_imp fun hpath =>
      ⟨fun postSlash _ => ?_, fun s postSlash _ => List.forall_mem_nil _⟩
    dsimp only
    split
    · exact List.forall_mem_nil _
    · exact Log.forall_bind.2 ⟨Volume.createFileUses_fits hpath, fun _ _ => List.forall_mem_nil _⟩

/-- No buffer is overrun exactly if what is written into each fits. -/
theorem buffers_hold_iff (m : Machine) (input : Input) : (∀ u ∈ (input.uses m).entries, u.Fits) ↔
    input.Fits m := by
  rcases input with ⟨path, flags⟩ | line
  · exact openUses_fits m path flags
  · exact executeCommandUses_fits m line

/-- The only file of the volume is `A`, and nothing is mapped. -/
def Machine.oneFile : Machine where
  volume := Fat.oneFile
  mmu := .blank
  lastExitCode := 0
  atNull := ⟨[], List.not_mem_nil⟩
  missing := ⟨[], List.not_mem_nil⟩
  address := 0
  argbuf := fun _ => 0
  callApp := fun _ _ _ => none
  resetCR3 := 1
  waitFinish := .kSuccess

/-- A path of 13 characters: `path_elem` gets 14 bytes. -/
theorem not_buffers_hold : ¬ ∀ (m : Machine) (input : Input), ∀ u ∈ (input.uses m).entries,
    u.Fits := fun h => by
  have hnul : (0 : UInt8) ∉ List.replicate 13 0x61 := by decide
  have hfile : List.replicate 13 0x61 ≠ chars "@stdin" := by decide
  have hpath :=
    (openUses_fits .oneFile ⟨List.replicate 13 0x61, hnul⟩ 0).1 (h .oneFile (.open _ 0)) hfile
  have hlong : ¬ (List.replicate 13 (0x61 : UInt8)).length ≤ kMaxPathElem := by decide
  exact absurd hpath.1 hlong

end Terminal

end Moxia
