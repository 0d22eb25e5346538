import Moxia.Terminal.Overruns
import Moxia.Fat.Names
import Moxia.Fat.WriteFidelity

/-!
# Commands with a redirect

`echo text > path` and `cat path > path` write through `PrintToFD` into a descriptor of the file,
`cat` byte by byte, while it walks the chain of its argument. What goes wrong is reported to
`files[2]`, through the same buffer. Between the commands, a store that maps slots to byte strings
says what the files hold; whatever the commands are, `cat` of a file prints what the store has
(`redirects_refine`). A command that writes nothing leaves a file as long as it was.
-/

namespace Moxia.Terminal

open Lib Fat Volume FileDescriptor

variable {v v' v₀ v₁ : Volume} {fd fd' : FileDescriptor} {s t : Slot} {l l₀ m : List Nat}
    {bytes buf content : List UInt8}

/-- `PrintToFD`; `vsprintf` puts a terminator behind the string. -/
def printToFD (v : Volume) (fd : FileDescriptor) (str : List UInt8) :
    Option (Volume × FileDescriptor) :=
  if str.length < 128 then (fd.write v (fun i => str.getD i 0) str.length).map fun r =>
    (r.vol, r.fd) else none

/-- `PrintToFD` to the terminal. -/
def printToTerminal (str : List UInt8) : Option (List UInt8) :=
  if str.length < 128 then some str else none

/-- What `echo` prints first. -/
def echoText (lastExitCode : BitVec 32) (arg : Option (List UInt8)) : List UInt8 :=
  if arg.map (List.take 2) = some (chars "$?") then percentD lastExitCode else percentS arg

def echo (v : Volume) (fd : FileDescriptor) (lastExitCode : BitVec 32) (arg : Option (List UInt8)) :
    Option (Volume × FileDescriptor) :=
  (printToFD v fd (echoText lastExitCode arg)).bind fun (v, fd) => printToFD v fd (chars "\n")

/-- The inner loop of `cat`: `n` bytes of a cluster, from the byte `i` on. -/
def catChars (cluster : Nat) : Nat → Nat → Volume → FileDescriptor →
    Option (Volume × FileDescriptor)
  | 0, _, v, fd => some (v, fd)
  | n + 1, i, v, fd => (printToFD v fd (printChar (v.data cluster i))).bind fun (v, fd) =>
      catChars cluster n (i + 1) v fd

/-- The loop of `cat` while it writes to a file of the same volume. -/
def catClusters : Nat → Nat → Nat → Volume → FileDescriptor → Option (Volume × FileDescriptor)
  | 0, _, _, _, _ => none
  | fuel + 1, cluster, remainBytes, v, fd =>
    if cluster ≠ 0 ∧ cluster ≠ kEndOfClusterchain then
      if v.InRange cluster then
        let n := min v.bytesPerCluster remainBytes
        (catChars cluster n 0 v fd).bind fun (v, fd) => (v.nextCluster cluster).bind fun next =>
          catClusters fuel next (remainBytes - n) v fd
      else none
    else some (v, fd)

def catTo (v : Volume) (fd : FileDescriptor) (entry : Slot) : Option (Volume × FileDescriptor) :=
  catClusters (v.numClusters + 1) (v.firstCluster entry) (v.fileSize entry) v fd

def noSuchFile (arg : List UInt8) : List UInt8 := chars "no such file: " ++ arg ++ chars "\n"

def noRedirect (err : Fat.Error) : List UInt8 :=
  chars "failed to create a redirect file: " ++ err.code.name ++ chars "\n"

def isDirectory : List UInt8 := chars "cannot redirect to a directory\n"

/-- The redirect file, opened; without one `ExecuteCommand` reports that, and returns early. -/
def redirect (v : Volume) (redirDest : List UInt8) :
    Option (Except (List UInt8) (Volume × FileDescriptor)) :=
  (v.findFile redirDest).bind fun
    | (none, _) => (v.createFile redirDest).map fun
      | .error err => .error (noRedirect err)
      | .ok (v, s) => .ok (v, { fatEntry := s })
    | (some s, postSlash) =>
      some (if v.attr s = kDirectory ∨ postSlash = true then .error isDirectory else
        .ok (v, { fatEntry := s }))

/-! ## A command fills a file -/

theorem othersKept_refl (hs : v.Live s) : Mounted.OthersKept v v s where
  live _ := ⟨.inl, fun h => h.elim id fun heq => heq ▸ hs⟩
  entries _ _ _ _ _ := rfl
  files _ _ _ _ _ hl := ⟨hl, rfl⟩

theorem othersKept_trans (h : Mounted.OthersKept v₀ v s) (h' : Mounted.OthersKept v v' s) :
    Mounted.OthersKept v₀ v' s where
  live t := by
    rw [h'.live, h.live, or_assoc, or_self]
  entries t ht hne i hi :=
    (h'.entries t ((h.live t).2 (.inl ht)) hne i hi).trans (h.entries t ht hne i hi)
  files t l ht hne hreg hl := by
    have hlive := (h.live t).2 (.inl ht)
    obtain ⟨hl₁, hcont⟩ := h.files t l ht hne hreg hl
    obtain ⟨hl₂, hcont'⟩ :=
      h'.files t l hlive hne (fun hd => hreg ((h.entries t ht hne).isDirectory.1 hd)) hl₁
    exact ⟨hl₂, hcont'.trans hcont⟩

theorem map_getD_range (buf : List UInt8) :
    (List.range buf.length).map (fun i => buf.getD i 0) = buf := by
  refine List.ext_getElem (by rw [List.length_map, List.length_range]) fun i hi hi' => ?_
  rw [List.getElem_map, List.getElem_range, List.getD_eq_getElem _ _ hi']

/-- There are clusters enough for the first `n` bytes of a file. -/
def Room (v : Volume) (s : Slot) (n : Nat) : Prop :=
  n < 2 ^ 32 ∧ ∀ l, v.EntryChain s l → max (numCluster v n) 1 ≤ l.length + v.freeClusters.length

theorem Room.mono {n k : Nat} (h : Room v s n) (hle : k ≤ n) : Room v s k :=
  ⟨Nat.lt_of_le_of_lt hle h.1, fun l hl =>
    Nat.le_trans (by have := numCluster_mono (v := v) hle; omega) (h.2 l hl)⟩

/-- A command with the redirect file `s` has written `bytes` so far. -/
structure Filling (v₀ : Volume) (s : Slot) (v : Volume) (fd : FileDescriptor)
    (bytes : List UInt8) : Prop where
  wellFormed : v.WellFormed
  live : v.Live s
  regular : ¬ v.IsDirectory s
  others : Mounted.OthersKept v₀ v s
  appending : ∃ l₀ l pos, v₀.EntryChain s l₀ ∧ Appending v₀ s l₀ v fd l pos bytes
  size : bytes ≠ [] → v.fileSize s = bytes.length

namespace Filling

theorem fresh (hwf : v.WellFormed) (hs : v.Live s) (hreg : ¬ v.IsDirectory s) :
    Filling v s v { fatEntry := s } [] := by
  obtain ⟨l, hl⟩ := hwf.chain s hs
  exact ⟨hwf, hs, hreg, othersKept_refl hs, ⟨l, l, 0, hl, .fresh (hwf.fileAt hs hl)⟩,
    fun h => absurd rfl h⟩

theorem bytesPerCluster (h : Filling v₀ s v fd bytes) : v.bytesPerCluster = v₀.bytesPerCluster := by
  obtain ⟨l₀, l, pos, -, happ⟩ := h.appending
  exact happ.took.bytesPerCluster

/-- A call of `PrintToFD` that starts in a cluster and does not get past its end, or prints a single
byte. -/
theorem print (h : Filling v₀ s v fd bytes) (hlen : buf.length < 128)
    (hfit : bytes.length % v₀.bytesPerCluster + buf.length ≤ v₀.bytesPerCluster)
    (hroom : Room v₀ s (bytes.length + buf.length)) :
    ∃ v' fd', printToFD v fd buf = some (v', fd') ∧ Filling v₀ s v' fd' (bytes ++ buf) := by
  obtain ⟨l₀, l, pos, hl₀, happ⟩ := h.appending
  have hB := h.bytesPerCluster
  have hle : bytes.length ≤ l.length * v.bytesPerCluster := by
    rw [← length_chainBytes, ← happ.bytes]
    exact List.length_take_le' _ _
  have hok : WriteOk v.bytesPerCluster l.length bytes.length buf.length := by
    rw [hB] at hle ⊢
    refine ⟨.inl hfit, .inr ?_⟩
    have hclusters : bytes.length / v₀.bytesPerCluster ≤ l.length :=
      Nat.div_le_of_le_mul (Nat.mul_comm .. ▸ hle)
    have hmul := Nat.mul_le_mul_left v₀.bytesPerCluster hclusters
    have hdiv := Nat.div_add_mod bytes.length v₀.bytesPerCluster
    rw [Nat.succ_mul, Nat.mul_comm l.length]
    omega
  have hfree : max (numCluster v (bytes.length + buf.length)) 1 ≤
    l.length + v.freeClusters.length := by
    have := hroom.2 l₀ hl₀
    rwa [← happ.took.length_add.2, numCluster, ← hB] at this
  obtain ⟨r, hr⟩ := happ.exists_write hok (fun i => buf.getD i 0) hfree
  obtain ⟨-, -, hsize, l', pos', happ', -⟩ := happ.write hok hr
  obtain ⟨ext, _, hwritten⟩ := happ.file.write happ.entry happ.writer hr
  have hgrows := hwritten.grows h.wellFormed h.live h.regular happ.file.chain
  have hothers := Mounted.OthersKept.of_grows hgrows h.wellFormed
  rw [map_getD_range] at happ'
  refine ⟨r.vol, r.fd, ?_, hgrows.wellFormed h.wellFormed, (hothers.live s).2 (.inr rfl),
    hgrows.regular,
    othersKept_trans h.others hothers, ⟨l₀, l', pos', hl₀, happ'⟩, fun _ => ?_⟩
  · rw [printToFD, if_pos hlen, hr]
    rfl
  · rw [hsize, List.length_append, Nat.mod_eq_of_lt hroom.1]

theorem other (h : Filling v₀ s v fd bytes) (ht : v₀.Live t) (hreg : ¬ v₀.IsDirectory t)
    (hne : t ≠ s) (hm : v₀.EntryChain t m) :
    v.EntryChain t m ∧ v.contents t m = v₀.contents t m := h.others.files t m ht hne hreg hm

theorem holds (h : Filling v₀ s v fd bytes) (hne : bytes ≠ []) : v.cat s = some bytes := by
  obtain ⟨l₀, l, pos, -, happ⟩ := h.appending
  have hl := happ.file.chain
  rw [cat_eq hl h.wellFormed.numbers (h.wellFormed.size s l h.live hl), contents,
    h.size hne, happ.bytes]

end Filling

/-! ## The commands -/

theorem mod_add_one_le {B p : Nat} (hB : 0 < B) : p % B + 1 ≤ B := Nat.mod_lt p hB

/-- The source file has the chain `m` and the bytes `content`. -/
structure Source (v₀ : Volume) (t : Slot) (m : List Nat) (content : List UInt8) : Prop where
  live : v₀.Live t
  regular : ¬ v₀.IsDirectory t
  chain : v₀.EntryChain t m
  contents : v₀.contents t m = content

/-- The bytes of the source along its chain, as long as the redirect file is another one. -/
theorem Source.data {pos i c : Nat} (hsrc : Source v₀ t m content) (hne : t ≠ s)
    (h : Filling v₀ s v fd bytes)
    (hpos : m[pos]? = some c) (hi : i < v₀.bytesPerCluster)
    (hlt : pos * v₀.bytesPerCluster + i < content.length) :
    v.data c i = content[pos * v₀.bytesPerCluster + i] := by
  obtain ⟨-, hcont⟩ := h.other hsrc.live hsrc.regular hne hsrc.chain
  have hbytes : (v.chainBytes m).take (v.fileSize t) = content := hcont.trans hsrc.contents
  have hfit : i + 1 ≤ v.bytesPerCluster := h.bytesPerCluster ▸ hi
  have hpiece := chainBytes_piece hpos hfit
  rw [h.bytesPerCluster] at hpiece
  have hdrop : ((content.drop (pos * v₀.bytesPerCluster + i)).take 1) = [v.data c i] := by
    rw [← hbytes, List.drop_take, List.take_take, Nat.min_eq_left]
    · exact hpiece
    · have := List.length_take_le (v.fileSize t) (v.chainBytes m)
      rw [hbytes] at this
      omega
  rw [List.drop_eq_getElem_cons hlt, List.take_succ_cons, List.take_zero] at hdrop
  exact (List.cons.inj hdrop).1.symm

theorem Filling.catChars {pos c : Nat} (hsrc : Source v₀ t m content) (hne : t ≠ s)
    (hpos : m[pos]? = some c)
    (hroom : content ≠ [] → Room v₀ s content.length) :
    ∀ {n i : Nat} {v : Volume} {fd : FileDescriptor},
      Filling v₀ s v fd (content.take (pos * v₀.bytesPerCluster + i)) → i + n ≤ v₀.bytesPerCluster →
      pos * v₀.bytesPerCluster + i + n ≤ content.length →
      ∃ v' fd', Terminal.catChars c n i v fd = some (v', fd') ∧
        Filling v₀ s v' fd' (content.take (pos * v₀.bytesPerCluster + i + n)) := by
  intro n
  induction n with
  | zero => exact fun h _ _ => ⟨_, _, rfl, h⟩
  | succ n ih =>
    intro i v fd h hfit hlen
    have hlt : pos * v₀.bytesPerCluster + i < content.length := by omega
    have hdata := hsrc.data hne h hpos (by omega) hlt
    have htake : (content.take (pos * v₀.bytesPerCluster + i)).length =
      pos * v₀.bytesPerCluster + i :=
      List.length_take_of_le (Nat.le_of_lt hlt)
    obtain ⟨v', fd', hprint, h'⟩ :=
      h.print (show (printChar (v.data c i)).length < 128 from Nat.one_lt_succ_succ 126)
        (mod_add_one_le (by omega))
      ((hroom (List.ne_nil_of_length_pos (by omega))).mono (by rw [htake]; exact hlt))
    rw [printChar, hdata, List.take_append_getElem] at h'
    obtain ⟨v'', fd'', hrun, h''⟩ := ih (i := i + 1) h' (by omega) (by omega)
    refine ⟨v'', fd'', ?_, ?_⟩
    · rw [Terminal.catChars, hprint]
      exact hrun
    · rwa [← Nat.add_assoc, Nat.add_assoc _ 1 n, Nat.add_comm 1 n] at h''

/-- What is left of the cluster `pos`, or nothing behind the end of the file. -/
theorem Filling.catCluster {pos c n : Nat} (hsrc : Source v₀ t m content) (hne : t ≠ s)
    (hpos : m[pos]? = some c) (hroom : content ≠ [] → Room v₀ s content.length)
    (hn : n = min v₀.bytesPerCluster (content.length - pos * v₀.bytesPerCluster))
    (h : Filling v₀ s v fd (content.take (pos * v₀.bytesPerCluster))) :
    ∃ v' fd', Terminal.catChars c n 0 v fd = some (v', fd') ∧
      Filling v₀ s v' fd' (content.take ((pos + 1) * v₀.bytesPerCluster)) := by
  have hmul : (pos + 1) * v₀.bytesPerCluster = pos * v₀.bytesPerCluster + v₀.bytesPerCluster :=
    Nat.succ_mul ..
  rcases Nat.le_total content.length (pos * v₀.bytesPerCluster) with hdone | hmore
  · rw [List.take_of_length_le hdone] at h
    rw [List.take_of_length_le (by omega), hn, Nat.sub_eq_zero_of_le hdone, Nat.min_zero]
    exact ⟨v, fd, rfl, h⟩
  · obtain ⟨v', fd', hchars, h'⟩ :=
      h.catChars hsrc hne hpos hroom (n := n) (i := 0) (by omega) (by omega)
    refine ⟨v', fd', hchars, ?_⟩
    have htake : content.take (pos * v₀.bytesPerCluster + 0 + n) =
        content.take ((pos + 1) * v₀.bytesPerCluster) := by
      rcases Nat.le_total content.length ((pos + 1) * v₀.bytesPerCluster) with hle | hle
      · rw [List.take_of_length_le hle, List.take_of_length_le (by omega)]
      · rw [show pos * v₀.bytesPerCluster + 0 + n = (pos + 1) * v₀.bytesPerCluster by omega]
    exact htake ▸ h'

/-- The chain of the source is as it was. -/
theorem Filling.sourceChain (hsrc : Source v₀ t m content) (hne : t ≠ s) (hm : m ≠ [])
    (h : Filling v₀ s v fd bytes) : v.IsChain (v₀.firstCluster t) m := by
  obtain ⟨hl, -⟩ := h.other hsrc.live hsrc.regular hne hsrc.chain
  rw [EntryChain, (h.others.entries t hsrc.live hne).firstCluster] at hl
  exact hl.resolve_left fun hnil => hm hnil.2

theorem Filling.catClusters (hwf : v₀.WellFormed) (hsrc : Source v₀ t m content) (hne : t ≠ s)
    (hroom : content ≠ [] → Room v₀ s content.length) :
    ∀ {fuel pos c : Nat} {v : Volume} {fd : FileDescriptor},
      Filling v₀ s v fd (content.take (pos * v₀.bytesPerCluster)) → m[pos]? = some c →
        m.length < fuel + pos →
      ∃ v' fd', Terminal.catClusters fuel c (content.length - pos * v₀.bytesPerCluster) v fd =
        some (v', fd') ∧
        Filling v₀ s v' fd' content := by
  have hsize : content.length ≤ m.length * v₀.bytesPerCluster := by
    rw [← hsrc.contents, length_contents (hwf.size t m hsrc.live hsrc.chain)]
    exact hwf.size t m hsrc.live hsrc.chain
  intro fuel
  induction fuel with
  | zero =>
    intro pos c v fd _ hpos hfuel
    have := (List.getElem?_eq_some_iff.1 hpos).1
    omega
  | succ fuel ih =>
    intro pos c v fd h hpos hfuel
    have hm : m ≠ [] := List.ne_nil_of_mem (List.mem_of_getElem? hpos)
    have hmul : (pos + 1) * v₀.bytesPerCluster = pos * v₀.bytesPerCluster + v₀.bytesPerCluster :=
      Nat.succ_mul ..
    obtain ⟨n, hn⟩ : ∃ n, n = min v₀.bytesPerCluster (content.length - pos * v₀.bytesPerCluster) :=
      ⟨_, rfl⟩
    obtain ⟨v', fd', hchars, h'⟩ := h.catCluster hsrc hne hpos hroom hn
    obtain ⟨h0, hend, hr, -⟩ := (h.sourceChain hsrc hne hm).walk h.wellFormed.numbers hpos
    obtain ⟨-, -, -, hnext⟩ := (h'.sourceChain hsrc hne hm).walk h'.wellFormed.numbers hpos
    have hleft : content.length - pos * v₀.bytesPerCluster - n =
        content.length - (pos + 1) * v₀.bytesPerCluster := by omega
    obtain ⟨v'', fd'', hrest, h''⟩ : ∃ v'' fd'',
        Terminal.catClusters fuel (m[pos + 1]?.getD kEndOfClusterchain)
          (content.length - (pos + 1) * v₀.bytesPerCluster) v' fd' = some (v'', fd'') ∧
        Filling v₀ s v'' fd'' content := by
      by_cases hlast : pos + 1 < m.length
      · rw [List.getElem?_eq_getElem hlast, Option.getD_some]
        exact ih h' (List.getElem?_eq_getElem hlast) (by omega)
      · have hposlt := (List.getElem?_eq_some_iff.1 hpos).1
        have heq : m.length = pos + 1 := by omega
        obtain ⟨k, rfl⟩ := Nat.exists_eq_succ_of_ne_zero (show fuel ≠ 0 by omega)
        rw [List.getElem?_eq_none (Nat.le_of_eq heq), Option.getD_none, Terminal.catClusters,
          if_neg fun h => h.2 rfl]
        rw [List.take_of_length_le (heq ▸ hsize)] at h'
        exact ⟨v', fd', rfl, h'⟩
    refine ⟨v'', fd'', ?_, h''⟩
    rw [Terminal.catClusters, if_pos ⟨h0, hend⟩, if_pos hr]
    simp only [h.bytesPerCluster, ← hn, hchars, Option.bind_some, hnext, hleft, hrest]

theorem catClusters_zero : ∀ {fuel c : Nat} {v : Volume} {fd : FileDescriptor},
    Terminal.catClusters fuel c 0 v fd = some (v', fd') → v' = v ∧ fd' = fd := by
  intro fuel
  induction fuel with
  | zero => exact fun h => by cases h
  | succ fuel ih =>
    intro c v fd h
    rw [Terminal.catClusters] at h
    split at h
    · split at h
      · rw [Nat.min_zero] at h
        change ((v.nextCluster c).bind fun next => Terminal.catClusters fuel next 0 v fd) = _ at h
        obtain ⟨next, -, h⟩ := Option.bind_eq_some_iff.1 h
        exact ih h
      · cases h
    · cases h
      exact ⟨rfl, rfl⟩

/-- `cat` fills the redirect file with what its argument holds. -/
theorem catTo_spec (hwf : v.WellFormed) (hs : v.Live s) (hreg : ¬ v.IsDirectory s)
    (hsrc : Source v t m content) (hne : t ≠ s)
    (hroom : content ≠ [] → Room v s content.length) :
    ∃ v' fd', catTo v { fatEntry := s } t = some (v', fd') ∧ Filling v s v' fd' content := by
  have hfresh := Filling.fresh hwf hs hreg
  have hlen : content.length = v.fileSize t := by
    rw [← hsrc.contents, length_contents (hwf.size t m hsrc.live hsrc.chain)]
  rcases hsrc.chain with ⟨h0, rfl⟩ | hm
  · obtain rfl : content = [] := by
      rw [← hsrc.contents, contents, chainBytes, List.flatMap_nil, List.take_nil]
    refine ⟨v, _, ?_, hfresh⟩
    rw [catTo, Terminal.catClusters, if_neg fun h => h.1 h0]
  · have hfuel : m.length < v.numClusters + 1 + 0 := Nat.lt_succ_of_le hm.length_le
    have hzero : content.take (0 * v.bytesPerCluster) = [] := by rw [Nat.zero_mul, List.take_zero]
    obtain ⟨v', fd', hrun, h⟩ :=
      Filling.catClusters hwf hsrc hne hroom (hzero.symm ▸ hfresh) hm.chain.getElem_zero hfuel
    rw [Nat.zero_mul, Nat.sub_zero, hlen] at hrun
    exact ⟨v', fd', hrun, h⟩

/-- `echo` fills the redirect file with its text and a newline. -/
theorem echo_spec {code : BitVec 32} {arg : Option (List UInt8)} (hwf : v.WellFormed)
    (hs : v.Live s) (hreg : ¬ v.IsDirectory s)
    (hB : 128 ≤ v.bytesPerCluster) (htext : (echoText code arg).length < 128)
    (hroom : Room v s (echoText code arg ++ chars "\n").length) :
    ∃ v' fd', echo v { fatEntry := s } code arg = some (v', fd') ∧
      Filling v s v' fd' (echoText code arg ++ chars "\n") := by
  have hlen : (echoText code arg ++ chars "\n").length = (echoText code arg).length + 1 :=
    List.length_append
  rw [hlen] at hroom
  obtain ⟨v₁, fd₁, htextrun, h₁⟩ :=
    (Filling.fresh hwf hs hreg).print htext (by rw [List.length_nil, Nat.zero_mod]; omega)
    (hroom.mono (by rw [List.length_nil]; omega))
  rw [List.nil_append] at h₁
  obtain ⟨v₂, fd₂, hnewline, h₂⟩ :=
    h₁.print (show (chars "\n").length < 128 by decide) (mod_add_one_le (by omega)) hroom
  refine ⟨v₂, fd₂, ?_, h₂⟩
  rw [echo, htextrun]
  exact hnewline

/-! ## A store of files -/

/-- What the regular files of the volume hold. -/
structure Represents (σ : Slot → Option (List UInt8)) (v : Volume) : Prop where
  files : ∀ s, (σ s).isSome = true ↔ v.Live s ∧ ¬ v.IsDirectory s
  cat : ∀ s bytes, σ s = some bytes → v.cat s = some bytes

variable {σ : Slot → Option (List UInt8)}

theorem Represents.update (h : Represents σ v₀) (hwf₀ : v₀.WellFormed) (hwf : v.WellFormed)
    (hothers : Mounted.OthersKept v₀ v s)
    (hreg : ¬ v.IsDirectory s) (hcat : v.cat s = some bytes) :
    Represents (Function.update σ s (some bytes)) v where
  files t := by
    by_cases hne : t = s
    · subst hne
      rw [Function.update_self]
      exact ⟨fun _ => ⟨(hothers.live t).2 (.inr rfl), hreg⟩, fun _ => rfl⟩
    · rw [Function.update_of_ne hne, h.files, hothers.live, or_iff_left hne]
      exact and_congr_right fun ht => not_congr (hothers.entries t ht hne).isDirectory.symm
  cat t bs ht := by
    by_cases hne : t = s
    · subst hne
      rw [Function.update_self] at ht
      exact hcat.trans ht
    · rw [Function.update_of_ne hne] at ht
      obtain ⟨hlive, hfile⟩ := (h.files t).1 (by rw [ht]; rfl)
      obtain ⟨m, hm⟩ := hwf₀.chain t hlive
      obtain ⟨hm', hcont⟩ := hothers.files t m hlive hne hfile hm
      rw [cat_eq hm' hwf.numbers (hwf.size t m ((hothers.live t).2 (.inl hlive)) hm'), hcont,
        ← cat_eq hm hwf₀.numbers (hwf₀.size t m hlive hm)]
      exact h.cat t bs ht

theorem Represents.source (h : Represents σ v) (hwf : v.WellFormed) (ht : v.Live t)
    (hreg : ¬ v.IsDirectory t) :
    ∃ m content, σ t = some content ∧ Source v t m content := by
  obtain ⟨content, hcontent⟩ := Option.isSome_iff_exists.1 ((h.files t).2 ⟨ht, hreg⟩)
  obtain ⟨m, hm⟩ := hwf.chain t ht
  have hcat := h.cat t content hcontent
  rw [cat_eq hm hwf.numbers (hwf.size t m ht hm)] at hcat
  exact ⟨m, content, hcontent, ht, hreg, hm, Option.some.inj hcat⟩

/-! ## The redirect file -/

/-- The path leads to a regular file, or to where one can be created. -/
structure CanRedirect (v : Volume) (dest : List UInt8) : Prop where
  walkable : Walkable dest
  file : ∀ s, v.findFile dest = some (some s, false) → v.attr s ≠ kDirectory →
    v.Live s ∧ ¬ v.IsDirectory s
  create : ∀ b, v.findFile dest = some (none, b) → CreateOk v dest ∧ EntryFits v dest

structure Redirected (σ : Slot → Option (List UInt8)) (v v₁ : Volume) (fd : FileDescriptor)
    (s : Slot) : Prop where
  fd : fd = { fatEntry := s }
  wellFormed : v₁.WellFormed
  live : v₁.Live s
  regular : ¬ v₁.IsDirectory s
  bytesPerCluster : v₁.bytesPerCluster = v.bytesPerCluster
  store : Represents (Function.update σ s (some ((σ s).getD []))) v₁

theorem redirect_created {dest : CString} (hwf : v.WellFormed) (hσ : Represents σ v)
    (hok : CreateOk v dest.chars)
    (hrun : v.createFile dest.chars = some (.ok (v₁, s))) :
    Redirected σ v v₁ { fatEntry := s } s := by
  obtain ⟨d, v', hparent, halloc, rfl⟩ := createFile_ok hrun
  obtain ⟨hd, hname, hclear⟩ := hok d hparent
  obtain ⟨l, hl⟩ := hwf.dirChain hd
  obtain ⟨ext, ha⟩ := (allocateEntry_spec hwf hl).1 v' s halloc
  obtain ⟨o, ho, hg⟩ :=
    ha.grows hwf hd hl (not_mem_filename dest.noNul) hname (ha.clear hwf fun hf => hclear l s hl hf)
  have hk := Mounted.OthersKept.of_grows hg hwf
  have hlive := (hk.live s).2 (.inr rfl)
  have hwf' := hg.wellFormed hwf
  have hchain := (hg.dir ho).2.1
  refine ⟨rfl, hwf', hlive, hg.regular, hg.extend.bytesPerCluster, ?_⟩
  have hnone : σ s = none := Option.not_isSome_iff_eq_none.1 fun h =>
    ha.not_live ((hσ.files s).1 h).1
  rw [hnone]
  refine hσ.update hwf hwf' hk hg.regular ?_
  rw [cat_eq hchain hwf'.numbers (hwf'.size s [] hlive hchain), contents, chainBytes,
    List.flatMap_nil, List.take_nil]
  rfl

theorem exists_redirect {dest : CString} (hwf : v.WellFormed) (hok : CanRedirect v dest.chars) :
    ∃ r, redirect v dest.chars = some r := by
  have hfind := ((named hwf).findFile hwf hok.walkable).1
  rw [redirect]
  rcases hfound : v.names.find dest.chars with ⟨_ | s, b⟩ <;> rw [hfound] at hfind <;>
    rw [hfind, Option.bind_some]
  · obtain ⟨r, hr⟩ := exists_createFile hwf hok.walkable (hok.create b hfind).2
    exact ⟨_, congrArg (Option.map _) hr⟩
  · exact ⟨_, rfl⟩

theorem length_noRedirect (err : Fat.Error) : (noRedirect err).length < 128 := by
  cases err <;> decide

theorem redirect_error {dest text : List UInt8}
    (hrun : redirect v dest = some (.error text)) : text.length < 128 := by
  obtain ⟨⟨found, postSlash⟩, -, hrun⟩ := Option.bind_eq_some_iff.1 hrun
  cases found with
  | none =>
    obtain ⟨err | r, -, hrun⟩ := Option.map_eq_some_iff.1 hrun
    · cases hrun
      exact length_noRedirect err
    · cases hrun
  | some s =>
    simp only [Option.some.injEq] at hrun
    split at hrun
    · cases hrun
      decide
    · cases hrun

theorem redirect_spec {dest : CString} (hwf : v.WellFormed) (hσ : Represents σ v)
    (hok : CanRedirect v dest.chars)
    (hrun : redirect v dest.chars = some (.ok (v₁, fd))) : ∃ s, Redirected σ v v₁ fd s := by
  obtain ⟨⟨found, postSlash⟩, hfind, hrun⟩ := Option.bind_eq_some_iff.1 hrun
  cases found with
  | none =>
    obtain ⟨r, hcreate, hrun⟩ := Option.map_eq_some_iff.1 hrun
    rcases r with err | ⟨v', s⟩
    · cases hrun
    · cases hrun
      exact ⟨s, redirect_created hwf hσ (hok.create postSlash hfind).1 hcreate⟩
  | some s =>
    simp only [Option.some.injEq] at hrun
    split at hrun
    · cases hrun
    · rename_i hfile
      rw [not_or, Bool.not_eq_true] at hfile
      cases hrun
      obtain ⟨hlive, hreg⟩ := hok.file s (hfile.2 ▸ hfind) hfile.1
      obtain ⟨m, content, hcontent, hsrc⟩ := hσ.source hwf hlive hreg
      refine ⟨s, rfl, hwf, hlive, hreg, rfl, hσ.update hwf hwf (othersKept_refl hlive) hreg
        (hσ.cat s _ ?_)⟩
      rw [hcontent]
      rfl

/-! ## Command after command -/

structure Session where
  vol : Volume
  lastExitCode : BitVec 32
  /-- What the files should hold. -/
  store : Slot → Option (List UInt8)
  /-- What the terminal has been given through `files[2]`. -/
  messages : List UInt8 := []

/-- What a command leaves behind. -/
structure Outcome where
  vol : Volume
  exitCode : BitVec 32 := 0
  messages : List UInt8 := []

/-- The command, with `files[1]` in the volume. -/
def command (v : Volume) (fd : FileDescriptor) (lastExitCode : BitVec 32)
    (setup : Setup Unit) : Option Outcome :=
  if setup.cmd = chars "echo" then (echo v fd lastExitCode setup.arg).map fun (v, _) => { vol := v }
  else if setup.cmd = chars "cat" then setup.arg.bind fun arg => (v.findFile arg).bind fun
    | (none, _) => (printToTerminal (noSuchFile arg)).map fun text =>
        { vol := v, exitCode := 1, messages := text }
    | (some entry, _) => (catTo v fd entry).map fun (v, _) => { vol := v }
  else none

/-- What the command writes when the files hold what the store says. -/
def output (σ : Slot → Option (List UInt8)) (v : Volume) (lastExitCode : BitVec 32)
    (setup : Setup Unit) : List UInt8 :=
  if setup.cmd = chars "echo" then echoText lastExitCode setup.arg ++ chars "\n"
  else match setup.arg.bind v.findFile with
    | some (some entry, _) => (σ entry).getD []
    | _ => []

/-- A command that writes nothing does not change a file. -/
def put (σ : Slot → Option (List UInt8)) (s : Slot) (bytes : List UInt8) :
    Slot → Option (List UInt8) :=
  Function.update σ s (some (if bytes = [] then (σ s).getD [] else bytes))

/-- What `ExecuteCommand` makes of a line. -/
def setup (line : List UInt8) : Setup Unit := executeCommand line (Vector.replicate 3 ())

theorem file_noNul {line dest : List UInt8}
    (h : getElem (setup line).files 1 stdout_lt = .file dest) : 0 ∉ dest := by
  rw [setup, executeCommand] at h
  dsimp only at h
  rcases hgt : strchr line gt with _ | p <;> rw [hgt] at h
  · -- without a redirect, `files[1]` is the given one or the pipe
    rw [Option.map_none] at h
    dsimp only at h
    split at h
    · rw [Vector.getElem_set_self] at h
      cases h
    · rw [Vector.getElem_map] at h
      cases h
  · rw [Option.map_some] at h
    dsimp only at h
    rw [Vector.getElem_set_self] at h
    cases h
    exact cstr_noNul _ _

namespace Session

/-- The command of the line has come to its end. -/
def after (st : Session) (v : Volume) (fd : FileDescriptor) (line : List UInt8)
    (o : Outcome) : Session where
  vol := o.vol
  lastExitCode := o.exitCode
  store := put st.store fd.fatEntry (output st.store v st.lastExitCode (setup line))
  messages := st.messages ++ o.messages

/-- `ExecuteCommand` of a line with a redirect and without a pipe. -/
def step (st : Session) (line : List UInt8) : Option Session :=
  match (setup line).subtask, getElem (setup line).files 1 stdout_lt with
  | none, .file dest => (redirect st.vol dest).bind fun
    | .error text => (printToTerminal text).map fun text =>
        { st with messages := st.messages ++ text }
    | .ok (v, fd) => (command v fd st.lastExitCode (setup line)).map (st.after v fd line)
  | _, _ => none

/-- The command can be executed: its text fits into the buffer of `PrintToFD`, or its argument leads
to a regular file other than the redirect file, or to none and is short enough for the message; and
there are clusters for what it writes. -/
def CanRun (v : Volume) (s : Slot) (lastExitCode : BitVec 32) (setup : Setup Unit) : Prop :=
  (setup.cmd = chars "echo" ∧ (echoText lastExitCode setup.arg).length < 128 ∧
    Room v s (echoText lastExitCode setup.arg ++ chars "\n").length) ∨
  (setup.cmd = chars "cat" ∧ ∃ arg, setup.arg = some arg ∧ Walkable arg ∧
    (∀ b, v.findFile arg = some (none, b) → (noSuchFile arg).length < 128) ∧
    ∀ entry b, v.findFile arg = some (some entry, b) →
      v.Live entry ∧ ¬ v.IsDirectory entry ∧ entry ≠ s ∧
      (v.fileSize entry ≠ 0 → Room v s (v.fileSize entry)))

structure Ready (st : Session) (line : List UInt8) : Prop where
  subtask : (setup line).subtask = none
  dest : ∃ dest, getElem (setup line).files 1 stdout_lt = .file dest ∧ CanRedirect st.vol dest ∧
    ∀ v fd, redirect st.vol dest = some (.ok (v, fd)) →
      CanRun v fd.fatEntry st.lastExitCode (setup line)

def Step : Session → List UInt8 → Session → Prop := Guarded Ready fun st line st' =>
    st.step line = some st'

structure Inv (st : Session) : Prop where
  wellFormed : st.vol.WellFormed
  large : 128 ≤ st.vol.bytesPerCluster
  represents : Represents st.store st.vol

theorem command_spec {code : BitVec 32} {su : Setup Unit} (hB : 128 ≤ v.bytesPerCluster)
    (hr : Redirected σ v v₁ fd s) (hrun : CanRun v₁ s code su) :
    ∃ o, command v₁ fd code su = some o ∧
      o.vol.WellFormed ∧ o.vol.bytesPerCluster = v.bytesPerCluster ∧
        Represents (put σ s (output σ v₁ code su)) o.vol := by
  have hB₁ := hr.bytesPerCluster
  have hfilled {v' : Volume} {fd' : FileDescriptor} {bytes : List UInt8}
      (h : Filling v₁ s v' fd' bytes) (hne : bytes ≠ []) :
      Represents (put σ s bytes) v' := by
    have hstore := hr.store.update hr.wellFormed h.wellFormed h.others h.regular (h.holds hne)
    rwa [put, if_neg hne, ← Function.update_idem]
  rcases hrun with ⟨hcmd, htext, hroom⟩ | ⟨hcmd, arg, harg, hwalk, hshort, hfound⟩
  · obtain ⟨v', fd', hecho, h⟩ := echo_spec hr.wellFormed hr.live hr.regular (hB₁ ▸ hB) htext hroom
    refine ⟨{ vol := v' }, ?_, h.wellFormed, h.bytesPerCluster.trans hB₁, ?_⟩
    · rw [command, if_pos hcmd, hr.fd, hecho]
      rfl
    · rw [output, if_pos hcmd]
      exact hfilled h (List.append_ne_nil_of_right_ne_nil _ (by decide))
  · have hecho : su.cmd ≠ chars "echo" := by
      rw [hcmd]
      decide
    have hfind := ((named hr.wellFormed).findFile hr.wellFormed hwalk).1
    rcases hN : v₁.names.find arg with ⟨_ | entry, postSlash⟩ <;> rw [hN] at hfind
    · refine ⟨{ vol := v₁, exitCode := 1, messages := noSuchFile arg }, ?_, hr.wellFormed, hB₁, ?_⟩
      · rw [command, if_neg hecho, if_pos hcmd, harg, Option.bind_some, hfind, Option.bind_some]
        dsimp only
        rw [printToTerminal, if_pos (hshort postSlash hfind)]
        rfl
      · rw [output, if_neg hecho, harg, Option.bind_some, hfind]
        exact hr.store
    · obtain ⟨hlive, hreg, hne, hroom⟩ := hfound entry postSlash hfind
      obtain ⟨m, content, hcontent, hsrc⟩ := hr.store.source hr.wellFormed hlive hreg
      rw [Function.update_of_ne hne] at hcontent
      have hsize : content.length = v₁.fileSize entry := by
        rw [← hsrc.contents, length_contents (hr.wellFormed.size entry m hlive hsrc.chain)]
      obtain ⟨v', fd', hcat, h⟩ :=
        catTo_spec hr.wellFormed hr.live hr.regular hsrc hne fun hnil => by
        rw [hsize]
        exact hroom (hsize ▸ (List.length_pos_of_ne_nil hnil).ne')
      refine ⟨{ vol := v' }, ?_, h.wellFormed, h.bytesPerCluster.trans hB₁, ?_⟩
      · rw [command, if_neg hecho, if_pos hcmd, harg, Option.bind_some, hfind,
          Option.bind_some, hr.fd]
        exact congrArg (Option.map _) hcat
      · rw [output, if_neg hecho, harg, Option.bind_some, hfind]
        show Represents (put σ s ((σ entry).getD [])) v'
        rw [hcontent, Option.getD_some]
        by_cases hnil : content = []
        · rw [hnil, List.length_nil] at hsize
          rw [catTo, ← hsize] at hcat
          rw [hnil, (catClusters_zero hcat).1]
          exact hr.store
        · exact hfilled h hnil

theorem step_eq {st : Session} {line dest : List UInt8} (hsubtask : (setup line).subtask = none)
    (hdest : getElem (setup line).files 1 stdout_lt = .file dest) :
    st.step line = (redirect st.vol dest).bind fun
      | .error text => (printToTerminal text).map fun text =>
          { st with messages := st.messages ++ text }
      | .ok (v, fd) => (command v fd st.lastExitCode (setup line)).map (st.after v fd line) := by
  rw [step, hsubtask, hdest]

theorem Inv.ready {st : Session} {line : List UInt8} (h : Inv st) (hready : st.Ready line) :
    ∃ st', st.step line = some st' ∧ Inv st' := by
  obtain ⟨dest, hdest, hcan, hrun⟩ := hready.dest
  let name : CString := ⟨dest, file_noNul hdest⟩
  have hcanName : CanRedirect st.vol name.chars := hcan
  obtain ⟨opened, hopened⟩ := exists_redirect h.wellFormed hcanName
  rw [step_eq hready.subtask hdest, show redirect st.vol dest = _ from hopened, Option.bind_some]
  rcases opened with text | ⟨v₁, fd⟩
  · dsimp only
    rw [printToTerminal, if_pos (redirect_error hopened)]
    exact ⟨_, rfl, h.wellFormed, h.large, h.represents⟩
  · obtain ⟨s, hr⟩ := redirect_spec h.wellFormed h.represents hcanName hopened
    have hcanRun := hrun v₁ fd hopened
    rw [hr.fd] at hcanRun
    obtain ⟨o, hcommand, hwf, hB, hstore⟩ := command_spec h.large hr hcanRun
    refine ⟨_, congrArg (Option.map _) hcommand, hwf,
      (show 128 ≤ o.vol.bytesPerCluster from hB ▸ h.large), ?_⟩
    rw [hr.fd]
    exact hstore

end Session

/-- Whatever commands have been executed, the volume is well-formed, its files hold what the store
says, and the next command that can be executed comes to its end. -/
theorem redirects_refine {code : BitVec 32} (hwf : v.WellFormed) (hB : 128 ≤ v.bytesPerCluster)
    (hσ : Represents σ v)
    {lines : List (List UInt8)} {st : Session}
    (hrun : Run Session.Step { vol := v, lastExitCode := code, store := σ } lines st) :
    st.vol.WellFormed ∧ Represents st.store st.vol ∧ ∀ line, st.Ready line →
      ∃ st', st.step line = some st' := by
  have hinv : st.Inv := hrun.inv (I := Session.Inv) (fun st line st' h hstep => by
    obtain ⟨st₁, hstep₁, h₁⟩ := h.ready hstep.1
    cases hstep.2.symm.trans hstep₁
    exact h₁) ⟨hwf, hB, hσ⟩
  exact ⟨hinv.wellFormed, hinv.represents, fun line hready => (hinv.ready hready).imp fun _ h =>
    h.1⟩

/-- The store of the volume with the file `A`. -/
def storeA : Slot → Option (List UInt8) := Function.update (fun _ => none) ⟨2, 0⟩ (some [0, 0, 0])

theorem represents_oneFile : Represents storeA oneFile where
  files s := by
    by_cases hne : s = ⟨2, 0⟩
    · subst hne
      exact iff_of_true rfl ⟨oneFile_live, by decide +kernel⟩
    · rw [storeA, Function.update_of_ne hne]
      refine iff_of_false (by decide) fun h => hne ?_
      obtain ⟨i, hi, rfl, he⟩ := (small_live (by decide) (by decide) fun i hi he => by
        obtain rfl := (oneFile_hasEntry i hi).1 he
        decide +kernel).1 h.1
      rw [(oneFile_hasEntry i hi).1 he]
  cat s bytes hs := by
    by_cases hne : s = ⟨2, 0⟩
    · subst hne
      cases hs
      decide +kernel
    · rw [storeA, Function.update_of_ne hne] at hs
      cases hs

def sessionA : Session := { vol := oneFile, lastExitCode := 0, store := storeA }

/-- The file takes the text in the place of its three bytes. -/
theorem redirects_refine_oneFile : ∃ st, Run Session.Step sessionA [chars "echo hi > a"] st ∧
    st.vol.WellFormed ∧ st.vol.cat ⟨2, 0⟩ = some (chars "hi \n") := by
  have hfind : oneFile.findFile (chars "a") = some (some ⟨2, 0⟩, false) := by decide +kernel
  have hreg : ¬ oneFile.IsDirectory ⟨2, 0⟩ := by decide +kernel
  have hred : redirect oneFile (chars "a") = some (.ok (oneFile, { fatEntry := ⟨2, 0⟩ })) := by
    have hattr : oneFile.attr ⟨2, 0⟩ ≠ kDirectory := by decide +kernel
    rw [redirect, hfind, Option.bind_some]
    exact congrArg some (if_neg (by simp [hattr]))
  have hroom : Room oneFile ⟨2, 0⟩ 4 := by
    refine ⟨by decide, fun l hl => ?_⟩
    rw [hl.unique oneFile_chain]
    decide +kernel
  have hready : Session.Ready sessionA (chars "echo hi > a") := by
    refine ⟨by decide, chars "a", by decide +kernel, ⟨⟨by decide, by decide⟩, fun s hs _ => ?_,
      fun b hb => ?_⟩,
      fun v fd hopened => ?_⟩
    · cases hfind.symm.trans hs
      exact ⟨oneFile_live, hreg⟩
    · cases hfind.symm.trans hb
    · cases hred.symm.trans hopened
      exact .inl ⟨by decide, by decide, hroom⟩
  have hinv : Session.Inv sessionA := ⟨oneFile_wellFormed, by decide, represents_oneFile⟩
  obtain ⟨st, hstep, -⟩ := hinv.ready hready
  have hrun : Run Session.Step sessionA [chars "echo hi > a"] st := .single ⟨hready, hstep⟩
  obtain ⟨hwf, hstore, -⟩ := redirects_refine oneFile_wellFormed (by decide) represents_oneFile hrun
  refine ⟨st, hrun, hwf, hstore.cat _ _ ?_⟩
  have hdest : getElem (setup (chars "echo hi > a")).files 1 stdout_lt = .file (chars "a") := by
    decide +kernel
  rw [Session.step_eq hready.subtask hdest, show redirect sessionA.vol _ = _ from hred,
    Option.bind_some] at hstep
  obtain ⟨_, -, rfl⟩ := Option.map_eq_some_iff.1 hstep
  have hput : put storeA ⟨2, 0⟩ (output storeA oneFile 0 (setup (chars "echo hi > a"))) ⟨2, 0⟩ =
    some (chars "hi \n") := by
    decide +kernel
  exact hput

end Moxia.Terminal
