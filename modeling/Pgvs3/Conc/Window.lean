import Mathlib
/-!
# An ordered window over parallel jobs

Each position of a sequence is either at hand (`ready`) or made by a job. Workers take the jobs in
order and each job sends its chunks into a queue of its own, with room for `cap` chunks; one
consumer takes the positions in order. A job may fail in the end, and then the consumer stops. Every
run ends (`step_lt`).
-/

namespace Conc

open List Function

inductive Source (α : Type) where
  | ready (chunks : List α)
  /-- What the job sends, and whether it then ends well. -/
  | job (chunks : List α) (ok : Bool)

def Source.chunks {α : Type} : Source α → List α
  | .ready cs => cs
  | .job cs _ => cs

inductive Phase (α : Type) where
  | waiting
  | running (worker : Nat) (left : List α)
  | finished
  | cancelled

/-- What a phase still has to do; `chunks` are those of the position. -/
def Phase.work {α : Type} (chunks : List α) : Phase α → Nat
  | .waiting => 2 * chunks.length + 2
  | .running _ left => 2 * left.length + 1
  | .finished => 0
  | .cancelled => 0

structure Window (α : Type) where
  phase : Nat → Phase α
  queue : Nat → List α
  /-- The position that the consumer is at. -/
  pos : Nat
  out : List α
  failed : Bool
  stopped : Bool

namespace Window

variable {α : Type}

def init : Window α := ⟨fun _ => .waiting, fun _ => [], 0, [], false, false⟩

variable (src : List (Source α)) (workers cap : Nat)

inductive Step : Window α → Window α → Prop
  | claim {s : Window α} {i w : Nat} {cs : List α} {ok : Bool} (hw : w < workers) (idle : ∀ j left, s.phase j ≠ .running w left)
      (hsrc : src[i]? = some (.job cs ok)) (hwait : s.phase i = .waiting)
      (first : ∀ j < i, ∀ cs ok, src[j]? = some (.job cs ok) → s.phase j ≠ .waiting) :
      Step s { s with phase := update s.phase i (.running w cs) }
  | send {s : Window α} {i w : Nat} {cs : List α} {ok : Bool} {c : α} {left : List α} (hsrc : src[i]? = some (.job cs ok))
      (hrun : s.phase i = .running w (c :: left)) (hroom : (s.queue i).length < cap) :
      Step s { s with phase := update s.phase i (.running w left), queue := update s.queue i (s.queue i ++ [c]) }
  | close {s : Window α} {i w : Nat} {cs : List α} (hsrc : src[i]? = some (.job cs true)) (hrun : s.phase i = .running w []) :
      Step s { s with phase := update s.phase i .finished }
  | fail {s : Window α} {i w : Nat} {cs : List α} (hsrc : src[i]? = some (.job cs false)) (hrun : s.phase i = .running w [])
      (hf : s.failed = false) : Step s { s with failed := true }
  /-- After a failure the other workers give up. -/
  | cancel {s : Window α} {i w : Nat} {cs : List α} {ok : Bool} {left : List α} (hsrc : src[i]? = some (.job cs ok))
      (hrun : s.phase i = .running w left) (hf : s.failed = true) : Step s { s with phase := update s.phase i .cancelled }
  | recv {s : Window α} {cs : List α} {ok : Bool} {c : α} {q : List α} (hsrc : src[s.pos]? = some (.job cs ok))
      (hq : s.queue s.pos = c :: q) (hs : s.stopped = false) :
      Step s { s with queue := update s.queue s.pos q, out := s.out ++ [c] }
  /-- The queue is empty and closed. -/
  | advance {s : Window α} {cs : List α} {ok : Bool} (hsrc : src[s.pos]? = some (.job cs ok)) (hfin : s.phase s.pos = .finished)
      (hq : s.queue s.pos = []) (hs : s.stopped = false) : Step s { s with pos := s.pos + 1 }
  | emit {s : Window α} {cs : List α} (hsrc : src[s.pos]? = some (.ready cs)) (hs : s.stopped = false) :
      Step s { s with pos := s.pos + 1, out := s.out ++ cs }
  | stop {s : Window α} (hf : s.failed = true) (hs : s.stopped = false) : Step s { s with stopped := true }

def Reached (s : Window α) : Prop := Relation.ReflTransGen (Step src workers cap) init s

def Ended (s : Window α) : Prop := ∀ s', ¬ Step src workers cap s s'

/-! ## Every run ends -/

def weight (s : Window α) (i : Nat) : Nat :=
  (s.phase i).work ((src[i]?.map Source.chunks).getD []) + (s.queue i).length + (if i < s.pos then 0 else 1)

def measure (s : Window α) : Nat :=
  ∑ i ∈ Finset.range src.length, weight src s i + (if s.failed then 0 else 1) + (if s.stopped then 0 else 1)

variable {src} {workers cap} {s : Window α} {i : Nat} {x : Source α} {p : Phase α}

theorem measure_lt {s' : Window α} (hi : src[i]? = some x) (hlt : weight src s' i < weight src s i)
    (hle : ∀ j, j ≠ i → weight src s' j = weight src s j) (hf : s'.failed = s.failed) (hs : s'.stopped = s.stopped) :
    measure src s' < measure src s := by
  have hmem : i ∈ Finset.range src.length := Finset.mem_range.2 (List.getElem?_eq_some_iff.1 hi).1
  have hsum : ∑ j ∈ Finset.range src.length, weight src s' j < ∑ j ∈ Finset.range src.length, weight src s j := by
    refine Finset.sum_lt_sum (fun j _ => ?_) ⟨i, hmem, hlt⟩
    by_cases hj : j = i
    · exact hj ▸ hlt.le
    · exact (hle j hj).le
  rw [measure, measure, hf, hs]
  omega

theorem measure_update (s : Window α) (p : Phase α) (q out : List α) (hi : src[i]? = some x)
    (hlt : p.work x.chunks + q.length < (s.phase i).work x.chunks + (s.queue i).length) :
    measure src { s with phase := update s.phase i p, queue := update s.queue i q, out := out } < measure src s := by
  refine measure_lt hi ?_ (fun j hj => ?_) rfl rfl
  · simp only [weight, update_self, hi, Option.map_some, Option.getD_some]
    omega
  · simp only [weight, update_of_ne hj]

theorem measure_pos {out : List α} (hi : src[s.pos]? = some x) : measure src { s with pos := s.pos + 1, out := out } < measure src s := by
  refine measure_lt hi ?_ (fun j hj => ?_) rfl rfl
  · simp only [weight, Nat.lt_succ_self, Nat.lt_irrefl, if_true, if_false]
  · have : j < s.pos + 1 ↔ j < s.pos := by omega
    simp only [weight, this]

theorem step_lt {s' : Window α} (h : Step src workers cap s s') : measure src s' < measure src s := by
  cases h with
  | @claim i w cs ok hw idle hsrc hwait first =>
    have hm := measure_update s (.running w cs) (s.queue i) s.out hsrc (by simp [hwait, Phase.work, Source.chunks])
    rwa [update_eq_self] at hm
  | send hsrc hrun hroom =>
    refine measure_update s _ _ s.out hsrc ?_
    simp only [hrun, Phase.work, length_append, length_cons, length_nil]
    omega
  | @close i w cs hsrc hrun =>
    have hm := measure_update s .finished (s.queue i) s.out hsrc (by simp [hrun, Phase.work])
    rwa [update_eq_self] at hm
  | fail hsrc hrun hf =>
    simp only [measure, hf, Bool.false_eq_true, if_true, if_false]
    have : ∀ i, weight src { s with failed := true } i = weight src s i := fun _ => rfl
    simp only [this]
    omega
  | @cancel i w cs ok left hsrc hrun hf =>
    have hm := measure_update s .cancelled (s.queue i) s.out hsrc (by simp [hrun, Phase.work])
    rwa [update_eq_self] at hm
  | @recv cs ok c q hsrc hq hs =>
    have hm := measure_update s (s.phase s.pos) q (s.out ++ [c]) hsrc (by simp [hq])
    rwa [update_eq_self] at hm
  | advance hsrc | emit hsrc => exact measure_pos hsrc
  | stop hf hs =>
    simp only [measure, hs, Bool.false_eq_true, if_true, if_false]
    have : ∀ i, weight src { s with stopped := true } i = weight src s i := fun _ => rfl
    simp only [this]
    omega

variable (src workers cap) in
theorem wellFounded_step : WellFounded fun s' s => Step src workers cap s s' :=
  Subrelation.wf (fun h => step_lt h) (InvImage.wf _ Nat.lt_wfRel.wf)

variable (src workers cap) in
theorem exists_ended (s : Window α) : ∃ s', Relation.ReflTransGen (Step src workers cap) s s' ∧ Ended src workers cap s' := by
  induction hm : measure src s using Nat.strong_induction_on generalizing s with
  | _ m ih =>
    by_cases hend : Ended src workers cap s
    · exact ⟨s, .refl, hend⟩
    · simp only [Ended, not_forall, not_not] at hend
      obtain ⟨s', hstep⟩ := hend
      obtain ⟨s'', hrun, hend⟩ := ih _ (hm ▸ step_lt hstep) s' rfl
      exact ⟨s'', hrun.head hstep, hend⟩

/-! ## What the consumer has passed on -/

/-- `sent` is what a job has sent so far. -/
def Flow (chunks : List α) : Phase α → List α → Prop
  | .waiting, sent => sent = []
  | .running _ left, sent => sent ++ left = chunks
  | .finished, sent => sent = chunks
  | .cancelled, sent => sent <+: chunks

theorem Flow.isPrefix {chunks sent : List α} (h : Flow chunks p sent) : sent <+: chunks := by
  cases p with
  | waiting =>
    obtain rfl : sent = [] := h
    exact List.nil_prefix
  | running w left => exact ⟨left, h⟩
  | finished =>
    obtain rfl : sent = chunks := h
    exact prefix_rfl
  | cancelled => exact h

/-- `cur` is what the consumer has got from the position it is at. -/
structure Inv (src : List (Source α)) (cur : List α) (s : Window α) : Prop where
  pos_le : s.pos ≤ src.length
  out_eq : s.out = (src.take s.pos).flatMap Source.chunks ++ cur
  none_yet : (∀ cs ok, src[s.pos]? ≠ some (Source.job cs ok)) → cur = []
  flow : ∀ i, s.pos ≤ i → ∀ cs ok, src[i]? = some (.job cs ok) → Flow cs (s.phase i) ((if i = s.pos then cur else []) ++ s.queue i)
  /-- Jobs are taken in order. -/
  order : ∀ i j, i < j → ∀ cs ok, src[i]? = some (.job cs ok) → s.phase i = .waiting → s.phase j = .waiting
  isJob : ∀ i, s.phase i ≠ .waiting → ∃ cs ok, src[i]? = some (.job cs ok)
  past : ∀ i < s.pos, ∀ cs ok, src[i]? = some (.job cs ok) → s.phase i = .finished
  well : ∀ i, s.phase i = .finished → ∃ cs, src[i]? = some (.job cs true)
  bad : s.failed = true → ∃ (i : Nat) (cs : List α), src[i]? = some (.job cs false)
  cancelled : ∀ i, s.phase i = .cancelled → s.failed = true
  stopped : s.stopped = true → s.failed = true

theorem inv_init : Inv src [] init where
  pos_le := Nat.zero_le _
  out_eq := by simp [init]
  none_yet := fun _ => rfl
  flow := fun i _ cs ok _ => by
    show (if i = 0 then [] else []) ++ [] = ([] : List α)
    rw [ite_self, append_nil]
  order := fun _ _ _ _ _ _ _ => rfl
  isJob := fun i h => absurd rfl h
  past := fun i hi => absurd hi (Nat.not_lt_zero i)
  well := nofun
  bad := nofun
  cancelled := nofun
  stopped := nofun

variable {cur cs : List α} {s s' : Window α} {ok : Bool}

/-- A worker goes on with the job at `i`: what it has sent, its phase and what is left change
together. -/
theorem Inv.work (h : Inv src cur s) {q : List α} (hsrc : src[i]? = some (.job cs ok))
    (hpos : s.pos ≤ i) (hflow : ∀ got, Flow cs (s.phase i) (got ++ s.queue i) → Flow cs p (got ++ q))
    (horder : ∀ j < i, ∀ cs ok, src[j]? = some (.job cs ok) → s.phase j ≠ .waiting) (hp : p ≠ .waiting)
    (hwell : p = .finished → ok = true) (hcan : p = .cancelled → s.failed = true) :
    Inv src cur { s with phase := update s.phase i p, queue := update s.queue i q } where
  pos_le := h.pos_le
  out_eq := h.out_eq
  none_yet := h.none_yet
  flow := by
    intro j hj cs' ok' hj'
    by_cases hji : j = i
    · subst hji
      obtain ⟨rfl, rfl⟩ : cs = cs' ∧ ok = ok' := by simpa [hsrc] using hj'
      simp only [update_self]
      exact hflow _ (h.flow j hj cs ok hsrc)
    · simp only [update_of_ne hji]
      exact h.flow j hj cs' ok' hj'
  order := by
    intro a b hab cs' ok' ha hwait
    have hai : a ≠ i := by
      rintro rfl
      exact hp (by simpa using hwait)
    simp only [update_of_ne hai] at hwait
    by_cases hbi : b = i
    · exact absurd hwait (horder a (hbi ▸ hab) cs' ok' ha)
    · simp only [update_of_ne hbi]
      exact h.order a b hab cs' ok' ha hwait
  isJob := by
    intro j hj
    by_cases hji : j = i
    · exact ⟨cs, ok, hji ▸ hsrc⟩
    · simp only [update_of_ne hji] at hj
      exact h.isJob j hj
  past := by
    intro j hj cs' ok' hj'
    have hji : j ≠ i := by
      rintro rfl
      exact absurd hj (Nat.not_lt.2 hpos)
    simp only [update_of_ne hji]
    exact h.past j hj cs' ok' hj'
  well := by
    intro j hj
    by_cases hji : j = i
    · subst hji
      simp only [update_self] at hj
      exact ⟨cs, hwell hj ▸ hsrc⟩
    · simp only [update_of_ne hji] at hj
      exact h.well j hj
  bad := h.bad
  cancelled := by
    intro j hj
    by_cases hji : j = i
    · subst hji
      simp only [update_self] at hj
      exact hcan hj
    · simp only [update_of_ne hji] at hj
      exact h.cancelled j hj
  stopped := h.stopped

theorem Inv.busy (h : Inv src cur s) (hsrc : src[i]? = some (.job cs ok)) (hne : s.phase i ≠ .waiting)
    (hnf : s.phase i ≠ .finished) : s.pos ≤ i ∧ ∀ j < i, ∀ cs ok, src[j]? = some (.job cs ok) → s.phase j ≠ .waiting := by
  constructor
  · by_contra hlt
    exact hnf (h.past i (Nat.not_le.1 hlt) cs ok hsrc)
  · intro j hj cs' ok' hj' hwait
    exact hne (h.order j i hj cs' ok' hj' hwait)

theorem Inv.advance (h : Inv src cur s) {rest : List α} (hsrc : src[s.pos]? = some x) (hall : cur ++ rest = x.chunks)
    (hfin : ∀ cs ok, x = .job cs ok → s.phase s.pos = .finished) :
    Inv src [] { s with pos := s.pos + 1, out := s.out ++ rest } where
  pos_le := (List.getElem?_eq_some_iff.1 hsrc).1
  out_eq := by
    simp only [take_add_one, hsrc, Option.toList_some, flatMap_append, flatMap_cons, flatMap_nil, append_nil,
      h.out_eq, append_assoc, hall]
  none_yet := fun _ => rfl
  flow := by
    intro i hi cs ok hi'
    have hi : s.pos + 1 ≤ i := hi
    have hflow := h.flow i (by omega) cs ok hi'
    rw [if_neg (by omega)] at hflow
    simpa using hflow
  order := h.order
  isJob := h.isJob
  past := by
    intro i hi cs ok hi'
    rcases Nat.lt_succ_iff_lt_or_eq.1 hi with hlt | heq
    · exact h.past i hlt cs ok hi'
    · subst heq
      exact hfin cs ok (Option.some.inj (hsrc.symm.trans hi'))
  well := h.well
  bad := h.bad
  cancelled := h.cancelled
  stopped := h.stopped

theorem Inv.step (h : Inv src cur s) (hstep : Step src workers cap s s') : ∃ cur', Inv src cur' s' := by
  cases hstep with
  | @claim i w cs ok hw idle hsrc hwait first =>
    have hpos : s.pos ≤ i := by
      by_contra hlt
      have hfin := h.past i (Nat.not_le.1 hlt) cs ok hsrc
      rw [hwait] at hfin
      cases hfin
    have hi := h.work (p := .running w cs) (q := s.queue i) hsrc hpos (fun got hg => ?_) first nofun nofun nofun
    · rw [update_eq_self] at hi
      exact ⟨cur, hi⟩
    · rw [hwait] at hg
      have hnil : got ++ s.queue i = [] := hg
      show got ++ s.queue i ++ cs = cs
      rw [hnil, nil_append]
  | @send i w cs ok c left hsrc hrun hroom =>
    obtain ⟨hpos, horder⟩ := h.busy hsrc (by simp [hrun]) (by simp [hrun])
    refine ⟨cur, h.work hsrc hpos (fun got hg => ?_) horder nofun nofun nofun⟩
    rw [hrun] at hg
    have hg : got ++ s.queue i ++ c :: left = cs := hg
    show got ++ (s.queue i ++ [c]) ++ left = cs
    rw [← hg]
    simp only [append_assoc, singleton_append]
  | @close i w cs hsrc hrun =>
    obtain ⟨hpos, horder⟩ := h.busy hsrc (by simp [hrun]) (by simp [hrun])
    have hi := h.work (p := .finished) (q := s.queue i) hsrc hpos (fun got hg => ?_) horder nofun (fun _ => rfl) nofun
    · rw [update_eq_self] at hi
      exact ⟨cur, hi⟩
    · rw [hrun] at hg
      have hg : got ++ s.queue i ++ [] = cs := hg
      show got ++ s.queue i = cs
      rw [← hg, append_nil]
  | @fail i w cs hsrc hrun hf =>
    exact ⟨cur, h.pos_le, h.out_eq, h.none_yet, h.flow, h.order, h.isJob, h.past, h.well,
      fun _ => ⟨i, cs, hsrc⟩, fun _ _ => rfl, fun _ => rfl⟩
  | @cancel i w cs ok left hsrc hrun hf =>
    obtain ⟨hpos, horder⟩ := h.busy hsrc (by simp [hrun]) (by simp [hrun])
    have hi := h.work (p := .cancelled) (q := s.queue i) hsrc hpos (fun got hg => hg.isPrefix) horder nofun nofun (fun _ => hf)
    rw [update_eq_self] at hi
    exact ⟨cur, hi⟩
  | @recv cs ok c q hsrc hq hs =>
    refine ⟨cur ++ [c], ⟨h.pos_le, ?_, ?_, fun i hi cs' ok' hi' => ?_, h.order, h.isJob, h.past, h.well, h.bad, h.cancelled, h.stopped⟩⟩
    · simp only [h.out_eq, append_assoc]
    · intro hno
      exact absurd hsrc (hno cs ok)
    · have hflow := h.flow i hi cs' ok' hi'
      by_cases hpos : i = s.pos
      · subst hpos
        simp only [if_true, hq, update_self] at hflow ⊢
        simpa using hflow
      · simp only [if_neg hpos, update_of_ne hpos] at hflow ⊢
        exact hflow
  | @advance cs ok hsrc hfin hq hs =>
    have hcur : cur ++ [] = cs := by
      have hflow := h.flow s.pos (le_refl _) cs ok hsrc
      rw [hfin, if_pos rfl, hq] at hflow
      exact hflow
    have hi := h.advance hsrc hcur fun _ _ _ => hfin
    rw [append_nil] at hi
    exact ⟨[], hi⟩
  | @emit cs hsrc hs =>
    have hcur : cur = [] := h.none_yet fun cs' ok' hj => by simp [hsrc] at hj
    exact ⟨[], h.advance hsrc (by simp [hcur, Source.chunks]) nofun⟩
  | stop hf hs =>
    exact ⟨cur, h.pos_le, h.out_eq, h.none_yet, h.flow, h.order, h.isJob, h.past, h.well, h.bad, h.cancelled, fun _ => hf⟩

theorem inv_of_reached (h : Reached src workers cap s) : ∃ cur, Inv src cur s := by
  induction h with
  | refl => exact ⟨[], inv_init⟩
  | tail _ hstep ih =>
    obtain ⟨cur, hinv⟩ := ih
    exact hinv.step hstep

/-! ## No run gets stuck -/

theorem Inv.progress (h : Inv src cur s) (hw : 0 < workers) (hc : 0 < cap) (hf : s.failed = false) (hlt : s.pos < src.length) :
    ∃ s', Step src workers cap s s' := by
  have hs : s.stopped = false := by
    cases hst : s.stopped with
    | false => rfl
    | true =>
      have := h.stopped hst
      rw [hf] at this
      cases this
  have hget : src[s.pos]? = some src[s.pos] := getElem?_eq_getElem hlt
  cases hsrc : src[s.pos] with
  | ready cs => exact ⟨_, .emit (hget.trans (congrArg some hsrc)) hs⟩
  | job cs ok =>
    have hget : src[s.pos]? = some (.job cs ok) := hget.trans (congrArg some hsrc)
    cases hq : s.queue s.pos with
    | cons c q => exact ⟨_, .recv hget hq hs⟩
    | nil =>
      cases hp : s.phase s.pos with
      | waiting =>
        -- the jobs before this one have finished and those after it have not been taken, so that no
        -- worker is busy
        refine ⟨_, .claim hw (fun j left hj => ?_) hget hp fun j hj cs' ok' hj' => by simp [h.past j hj cs' ok' hj']⟩
        obtain ⟨cs', ok', hj'⟩ := h.isJob j (by simp [hj])
        rcases Nat.lt_trichotomy j s.pos with hlt | heq | hgt
        · rw [h.past j hlt cs' ok' hj'] at hj
          cases hj
        · subst heq
          rw [hp] at hj
          cases hj
        · rw [h.order s.pos j hgt cs ok hget hp] at hj
          cases hj
      | running w left =>
        cases left with
        | cons c left => exact ⟨_, .send hget hp (by simpa [hq] using hc)⟩
        | nil =>
          cases ok with
          | true => exact ⟨_, .close hget hp⟩
          | false => exact ⟨_, .fail hget hp hf⟩
      | finished => exact ⟨_, .advance hget hp hq hs⟩
      | cancelled =>
        have := h.cancelled _ hp
        rw [hf] at this
        cases this

/-- How a run ends: all is passed on when every job ends well; otherwise the consumer has stopped.
-/
theorem ended (h : Reached src workers cap s) (hend : Ended src workers cap s) (hw : 0 < workers) (hc : 0 < cap) :
    (s.stopped = false ∧ s.out = src.flatMap Source.chunks ∧ ∀ (i : Nat) cs ok, src[i]? = some (.job cs ok) → ok = true) ∨
      (s.stopped = true ∧ ∃ (i : Nat) (cs : List α), src[i]? = some (.job cs false)) := by
  obtain ⟨cur, hinv⟩ := inv_of_reached h
  cases hf : s.failed with
  | true =>
    cases hs : s.stopped with
    | false => exact absurd (.stop hf hs) (hend _)
    | true => exact .inr ⟨rfl, hinv.bad hf⟩
  | false =>
    have hpos : s.pos = src.length := by
      by_contra hne
      obtain ⟨s', hstep⟩ := hinv.progress hw hc hf (lt_of_le_of_ne hinv.pos_le hne)
      exact hend s' hstep
    have hs : s.stopped = false := by
      cases hst : s.stopped with
      | false => rfl
      | true =>
        have := hinv.stopped hst
        rw [hf] at this
        cases this
    refine .inl ⟨hs, ?_, fun i cs ok hi => ?_⟩
    · have hcur : cur = [] := hinv.none_yet fun cs ok hsrc => by
        have := (List.getElem?_eq_some_iff.1 hsrc).1
        omega
      rw [hinv.out_eq, hcur, hpos, take_length, append_nil]
    · have hlt : i < src.length := (List.getElem?_eq_some_iff.1 hi).1
      obtain ⟨cs', hwell⟩ := hinv.well i (hinv.past i (hpos ▸ hlt) cs ok hi)
      have heq := Option.some.inj (hi.symm.trans hwell)
      injection heq

end Window

end Conc
