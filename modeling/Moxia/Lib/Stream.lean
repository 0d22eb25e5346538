import Moxia.Lib.Run

/-!
# Byte streams

What a stream between a writer and a reader is for, over any type of elements: the reader gets what
was written, in order, and an empty read exactly marks the end of a finished stream. Every read
takes the next elements, at least one, or, when the stream is finished and all of it was read, none.
-/

namespace Moxia.Lib

variable {α : Type*}

/-- All that was written, the reads one by one, and whether the writer is done. -/
structure Stream (α : Type*) where
  written : List α := []
  reads : List (List α) := []
  finished : Bool := false

namespace Stream

def returned (s : Stream α) : List α := s.reads.flatten

inductive Step : Stream α → Stream α → Prop
  | write {s : Stream α} (xs : List α) (h : s.finished = false) :
      Step s { s with written := s.written ++ xs }
  | finish {s : Stream α} : Step s { s with finished := true }
  | read {s : Stream α} {xs : List α} (hne : xs ≠ []) (h : s.returned ++ xs <+: s.written) :
      Step s { s with reads := s.reads ++ [xs] }
  | eof {s : Stream α} (hf : s.finished = true) (h : s.returned = s.written) :
      Step s { s with reads := s.reads ++ [[]] }

/-- The reader's view is right: a prefix of what was written, and an empty read only at the end. -/
structure Ok (s : Stream α) : Prop where
  isPrefix : s.returned <+: s.written
  eof : [] ∈ s.reads → s.finished = true ∧ s.returned = s.written
  eof_stays : s.reads.Pairwise fun a b => a = [] → b = []

theorem Ok.init : Ok ({} : Stream α) :=
  ⟨List.nil_prefix, fun h => (List.not_mem_nil h).elim, .nil⟩

theorem returned_snoc (s : Stream α) (xs : List α) :
    returned { s with reads := s.reads ++ [xs] } = s.returned ++ xs := by
  simp [returned]

theorem Ok.step {s s' : Stream α} (h : s.Ok) (hstep : Step s s') : s'.Ok := by
  cases hstep with
  | write xs hf =>
    refine ⟨h.isPrefix.trans (List.prefix_append _ _), fun hmem => ?_, h.eof_stays⟩
    have hfin := (h.eof hmem).1
    rw [hf] at hfin
    cases hfin
  | finish => exact ⟨h.isPrefix, fun hmem => ⟨rfl, (h.eof hmem).2⟩, h.eof_stays⟩
  | @read xs hne hpre =>
    -- after an empty read nothing is left to be read
    have hnil : [] ∉ s.reads := by
      intro hmem
      rw [(h.eof hmem).2] at hpre
      have := hpre.length_le
      rw [List.length_append] at this
      exact hne (List.eq_nil_of_length_eq_zero (by omega))
    refine ⟨by rw [returned_snoc]; exact hpre, fun hmem => ?_, ?_⟩
    · rcases List.mem_append.1 hmem with hmem | hmem
      · exact absurd hmem hnil
      · exact absurd (List.mem_singleton.1 hmem).symm hne
    · rw [List.pairwise_append]
      exact ⟨h.eof_stays, List.pairwise_singleton _ _, fun a ha _ _ ha' => absurd (ha' ▸ ha) hnil⟩
  | eof hf hall =>
    refine ⟨by rw [returned_snoc, List.append_nil]; exact h.isPrefix, fun _ => ⟨hf, ?_⟩, ?_⟩
    · rw [returned_snoc, List.append_nil]
      exact hall
    · rw [List.pairwise_append]
      exact ⟨h.eof_stays, List.pairwise_singleton _ _, fun _ _ b hb _ => List.mem_singleton.1 hb⟩

end Stream

end Moxia.Lib
