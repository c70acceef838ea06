import Pgvs3.Store.FileIds
/-!
# No file id twice

`Apart` says that each drawn id has one holder. The `setval` of an adoption or a clone writes what
it has computed from an older `last_value`, and can undo the `nextval`s in between; and a namespace
from a dump may hold ids that a gateway has drawn and not yet handed out, or that the sequence has
yet to reach. `Safe` leaves these out.
-/

namespace Pgvs3.FileIds

open List Option Function

/-! ## Who holds which id -/

inductive Holder where
  | session (s : Nat)
  | rows (g : Nat)
  | block (g : Nat)
deriving DecidableEq, Repr

def World.ids (w : World) : Holder → List Nat
  | .session s => w.cache s
  | .rows g => ((w.gate g).refill.map (·.2)).getD []
  | .block g => (w.gate g).block

def World.Reserved (w : World) (id : Nat) : Prop := ∃ h, id ∈ w.ids h

/-- Every drawn id is held once, lies below `bound` and has not been used. -/
structure Apart (ids : Holder → List Nat) (bound : Nat) (used : List Nat) : Prop where
  nodup : ∀ h, (ids h).Nodup
  disjoint : ∀ h h' id, id ∈ ids h → id ∈ ids h' → h = h'
  below : ∀ h, ∀ id ∈ ids h, id < bound
  fresh : ∀ h, ∀ id ∈ ids h, id ∉ used

theorem mem_update {ids : Holder → List Nat} {a x : Holder} {l : List Nat} {id : Nat} :
    id ∈ update ids a l x ↔ x = a ∧ id ∈ l ∨ x ≠ a ∧ id ∈ ids x := by
  by_cases hx : x = a <;> simp [hx]

theorem nodup_update {ids : Holder → List Nat} {a : Holder} {l : List Nat} (h : ∀ x, (ids x).Nodup) (hl : l.Nodup) (x : Holder) :
    (update ids a l x).Nodup := by
  by_cases hx : x = a <;> simp [hx, h x, hl]

namespace Apart

variable {ids ids' : Holder → List Nat} {bound : Nat} {used : List Nat}

section

variable (h : Apart ids bound used)
include h

/-- The ids are still those that somebody has held. -/
theorem move (hnodup : ∀ x, (ids' x).Nodup) (hdisj : ∀ x y id, id ∈ ids' x → id ∈ ids' y → x = y)
    (hheld : ∀ x, ∀ id ∈ ids' x, ∃ y, id ∈ ids y) : Apart ids' bound used where
  nodup := hnodup
  disjoint := hdisj
  below := fun x id hx => (hheld x id hx).elim fun y => h.below y id
  fresh := fun x id hx => (hheld x id hx).elim fun y => h.fresh y id

theorem sub (hsub : ∀ x, (ids' x).Sublist (ids x)) : Apart ids' bound used :=
  h.move (fun x => (h.nodup x).sublist (hsub x)) (fun x y id hx hy => h.disjoint x y id ((hsub x).subset hx) ((hsub y).subset hy))
    fun x _ hx => ⟨x, (hsub x).subset hx⟩

theorem mono {bound' : Nat} (hb : bound ≤ bound') : Apart ids bound' used :=
  { h with below := fun x id hx => Nat.lt_of_lt_of_le (h.below x id hx) hb }

theorem use {more : List Nat} (hmore : ∀ id ∈ more, ∀ x, id ∉ ids x) : Apart ids bound (more ++ used) := by
  refine { h with fresh := fun x id hx hused => ?_ }
  rcases mem_append.1 hused with hm | hu
  · exact hmore id hm x hx
  · exact h.fresh x id hx hu

/-- A holder gets ids from `bound` on in place of what it had. -/
theorem reserve (a : Holder) (n : Nat) (hused : ∀ id ∈ used, id < bound) :
    Apart (update ids a (List.range' bound n)) (bound + n) used := by
  have hnew : ∀ id, id ∈ List.range' bound n → bound ≤ id ∧ id < bound + n := fun id hid => mem_range'_1.1 hid
  refine ⟨nodup_update h.nodup nodup_range', fun x y id hx hy => ?_, fun x id hx => ?_, fun x id hx hu => ?_⟩
  · rcases mem_update.1 hx with ⟨rfl, hx'⟩ | ⟨-, hx'⟩ <;> rcases mem_update.1 hy with ⟨rfl, hy'⟩ | ⟨-, hy'⟩
    · rfl
    · exact absurd (h.below y id hy') (hnew id hx').1.not_gt
    · exact absurd (h.below x id hx') (hnew id hy').1.not_gt
    · exact h.disjoint x y id hx' hy'
  · rcases mem_update.1 hx with ⟨-, hx⟩ | ⟨-, hx⟩
    · exact (hnew id hx).2
    · exact Nat.lt_add_right n (h.below x id hx)
  · rcases mem_update.1 hx with ⟨-, hx⟩ | ⟨-, hx⟩
    · exact absurd (hused id hu) (hnew id hx).1.not_gt
    · exact h.fresh x id hx hu

end

variable {a : Holder} {id : Nat} {rest : List Nat}

/-- The first id of one holder goes to the end of another's. -/
theorem shift (h : Apart ids bound used) {b : Holder} (hab : a ≠ b) (ha : ids a = id :: rest) :
    Apart (update (update ids a rest) b (ids b ++ [id])) bound used := by
  have hnd := h.nodup a
  rw [ha, nodup_cons] at hnd
  have hmem : id ∈ ids a := ha ▸ mem_cons_self
  have hnotb : id ∉ ids b := fun hb => hab (h.disjoint a b id hmem hb)
  -- where an id is afterwards, in terms of where it was
  have hwas : ∀ x y, y ∈ update (update ids a rest) b (ids b ++ [id]) x → (x = b ∧ y = id) ∨ (y ∈ ids x ∧ y ≠ id) := by
    intro x y hy
    rcases mem_update.1 hy with ⟨rfl, hy⟩ | ⟨-, hy⟩
    · rcases mem_append.1 hy with hy | hy
      · exact .inr ⟨hy, fun he => hnotb (he ▸ hy)⟩
      · exact .inl ⟨rfl, mem_singleton.1 hy⟩
    · rcases mem_update.1 hy with ⟨rfl, hy'⟩ | ⟨hxa, hy'⟩
      · exact .inr ⟨ha ▸ mem_cons_of_mem _ hy', fun he => hnd.1 (he ▸ hy')⟩
      · exact .inr ⟨hy', fun he => hxa (h.disjoint x a id (he ▸ hy') hmem)⟩
  have hlast : (ids b ++ [id]).Nodup := (perm_append_singleton id (ids b)).nodup_iff.2 (nodup_cons.2 ⟨hnotb, h.nodup b⟩)
  refine h.move (nodup_update (nodup_update h.nodup hnd.2) hlast) (fun x y z hx hy => ?_) fun x y hy => ?_
  · rcases hwas x z hx with ⟨rfl, rfl⟩ | ⟨hx, hne⟩
    · rcases hwas y z hy with ⟨rfl, -⟩ | ⟨-, hne⟩
      · rfl
      · exact absurd rfl hne
    · rcases hwas y z hy with ⟨rfl, he⟩ | ⟨hy, -⟩
      · exact absurd he hne
      · exact h.disjoint x y z hx hy
  · rcases hwas x y hy with ⟨-, rfl⟩ | ⟨hy, -⟩
    · exact ⟨a, hmem⟩
    · exact ⟨x, hy⟩

theorem handOver (h : Apart ids bound used) (a b : Holder) : Apart (update (update ids a []) b (ids a)) bound used := by
  have hwas : ∀ x y, y ∈ update (update ids a []) b (ids a) x → (x = b ∧ y ∈ ids a) ∨ (x ≠ a ∧ y ∈ ids x) := by
    intro x y hy
    rcases mem_update.1 hy with hy | ⟨-, hy⟩
    · exact .inl hy
    · exact .inr ((mem_update.1 hy).resolve_left fun hx => not_mem_nil hx.2)
  refine h.move (nodup_update (nodup_update h.nodup nodup_nil) (h.nodup a)) (fun x y z hx hy => ?_) fun x y hy => ?_
  · rcases hwas x z hx with ⟨hxb, hx⟩ | ⟨hxa, hx⟩ <;> rcases hwas y z hy with ⟨hyb, hy⟩ | ⟨hya, hy⟩
    · rw [hxb, hyb]
    · exact absurd (h.disjoint y a z hy hx) hya
    · exact absurd (h.disjoint x a z hx hy) hxa
    · exact h.disjoint x y z hx hy
  · rcases hwas x y hy with ⟨-, hy⟩ | ⟨-, hy⟩
    · exact ⟨a, hy⟩
    · exact ⟨x, hy⟩

theorem spend (h : Apart ids bound used) (ha : ids a = id :: rest) : Apart (update ids a rest) bound (id :: used) := by
  have hnd := h.nodup a
  rw [ha, nodup_cons] at hnd
  have hmem : id ∈ ids a := ha ▸ mem_cons_self
  have hsub : Apart (update ids a rest) bound used := h.sub fun x => by
    by_cases hxa : x = a
    · rw [hxa, update_self, ha]
      exact sublist_cons_self _ _
    · rw [update_of_ne hxa]
  suffices hnot : ∀ y ∈ [id], ∀ x, y ∉ update ids a rest x from hsub.use hnot
  intro y hy x hx
  rw [mem_singleton.1 hy] at hx
  rcases mem_update.1 hx with ⟨-, hx⟩ | ⟨hxa, hx⟩
  · exact hnd.1 hx
  · exact hxa (h.disjoint x a id hx hmem)

end Apart

/-! ## The ids after a step -/

section Ids

variable {w : World}

theorem ids_setGate (w : World) (g : Nat) (x : Gateway) : (w.setGate g x).ids =
    update (update w.ids (.rows g) ((x.refill.map (·.2)).getD [])) (.block g) x.block := by
  funext h
  cases h with
  | session s => rfl
  | rows g' | block g' =>
    by_cases hg : g' = g
    · subst hg
      simp [World.ids, World.setGate]
    · simp [World.ids, World.setGate, hg]

theorem ids_setCache (w : World) (s : Nat) (c : List Nat) :
    World.ids { w with cache := update w.cache s c } = update w.ids (.session s) c := by
  funext h
  cases h with
  | session s' =>
    by_cases hs : s' = s
    · subst hs
      simp [World.ids]
    · simp [World.ids, hs]
  | rows | block => rfl

theorem Apart.clear {bound : Nat} {used : List Nat} {ids : Holder → List Nat} (h : Apart ids bound used) (a : Holder) :
    Apart (update ids a []) bound used := h.sub fun x => by
  by_cases hx : x = a
  · rw [hx, update_self]
    exact nil_sublist _
  · rw [update_of_ne hx]

end Ids

/-! ## The invariant -/

def World.used (w : World) : List Nat := handedIds w.log ++ settledIds w.log

def JobOk (w : World) (j : Job) : Prop :=
  match j.task with
  | .adopt ns => ∃ x, w.schema ns = some x ∧ (j.stage ≠ .locked → ∀ id ∈ x.chunks, id ∈ w.used ∨ id ≤ j.vMax) ∧
      (j.stage = .moved → j.vMax < w.upcoming)
  | .clone src dst => (∃ x, w.schema src = some x ∧ x.registered = true) ∧ (∀ x, w.schema dst = some x → x.registered = true) ∧
      ∀ id ∈ j.chunks ++ j.refs, id ∈ w.used

structure Inv (w : World) : Prop where
  apart : Apart w.ids w.upcoming w.used
  pos : 0 < w.upcoming
  below : ∀ id ∈ w.used, id < w.upcoming
  unique : Unique w.log
  known : ∀ ns x, w.schema ns = some x → x.registered = true → ∀ id ∈ x.files, id ∈ w.used
  job : ∀ j, w.job = some j → JobOk w j

/-- The sequence is not moved back, and the files of an adopted namespace are in nobody's block and
not ahead of it. -/
def Safe (w : World) : Act → Prop
  | .setval => ∀ j l, w.job = some j → j.stage = .looked l → w.upcoming ≤ max l j.vMax + 1
  | .commit => ∀ j ns x, w.job = some j → j.task = .adopt ns → w.schema ns = some x →
      (∀ id ∈ x.files, ¬ w.Reserved id) ∧ ∀ id ∈ x.refs, id < w.upcoming
  | _ => True

theorem inv_init : Inv World.init where
  apart := by
    have hnil : World.init.ids = fun _ => [] := by
      funext h
      cases h <;> rfl
    rw [hnil]
    exact ⟨fun _ => nodup_nil, nofun, nofun, nofun⟩
  pos := Nat.one_pos
  below := nofun
  unique := trivial
  known := nofun
  job := nofun

variable {w w' : World} {ns g s id : Nat} {j : Job}

theorem Inv.draw (h : Inv w) (hap : Apart w'.ids w'.upcoming w.used) (hup : w.upcoming ≤ w'.upcoming) (hlog : w'.log = w.log)
    (hschema : w'.schema = w.schema) (hjob : w'.job = w.job) : Inv w' := by
  have hused : w'.used = w.used := by rw [World.used, World.used, hlog]
  refine ⟨hused ▸ hap, Nat.lt_of_lt_of_le h.pos hup, fun id hid => ?_, hlog ▸ h.unique, fun ns x hx hr id hid => ?_, fun j hj => ?_⟩
  · exact Nat.lt_of_lt_of_le (h.below id (hused ▸ hid)) hup
  · rw [hused]
    exact h.known ns x (hschema ▸ hx) hr id hid
  · have hok := h.job j (hjob ▸ hj)
    unfold JobOk at hok ⊢
    rw [hschema, hused]
    split at hok
    · obtain ⟨x, hx, hch, hmv⟩ := hok
      exact ⟨x, hx, hch, fun hst => Nat.lt_of_lt_of_le (hmv hst) hup⟩
    · exact hok

theorem Inv.hand (h : Inv w) (hap : Apart w'.ids w.upcoming (id :: w.used)) (hfresh : id ∉ w.used)
    (hlt : id < w.upcoming) (hlast : w'.last = w.last) (hcalled : w'.called = w.called) (hlog : w'.log = .handed id :: w.log)
    (hschema : w'.schema = w.schema) (hjob : w'.job = w.job) : Inv w' := by
  have hup : w'.upcoming = w.upcoming := by rw [World.upcoming, World.upcoming, hlast, hcalled]
  have hused : w'.used = id :: w.used := by rw [World.used, World.used, hlog]; rfl
  refine ⟨by rw [hup, hused]; exact hap, hup ▸ h.pos, fun y hy => ?_, ?_, fun ns x hx hr y hy => ?_, fun j hj => ?_⟩
  · rw [hup]
    rcases mem_cons.1 (hused ▸ hy) with rfl | hy
    · exact hlt
    · exact h.below y hy
  · rw [hlog]
    rw [World.used, mem_append, not_or] at hfresh
    exact ⟨hfresh.1, hfresh.2, h.unique⟩
  · rw [hused]
    exact mem_cons_of_mem _ (h.known ns x (hschema ▸ hx) hr y hy)
  · have hok := h.job j (hjob ▸ hj)
    unfold JobOk at hok ⊢
    rw [hschema, hused, hup]
    split at hok
    · obtain ⟨x, hx, hch, hmv⟩ := hok
      exact ⟨x, hx, fun hst y hy => (hch hst y hy).imp_left (mem_cons_of_mem _), hmv⟩
    · exact ⟨hok.1, hok.2.1, fun y hy => mem_cons_of_mem _ (hok.2.2 y hy)⟩

theorem Inv.schema (h : Inv w) {o : Option Schema} (hknown : ∀ x, o = some x → x.registered = true → ∀ id ∈ x.files, id ∈ w.used)
    (hjob : ∀ j, w.job = some j → JobOk (w.setSchema ns o) j) : Inv (w.setSchema ns o) where
  apart := h.apart
  pos := h.pos
  below := h.below
  unique := h.unique
  known := by
    intro ns' x hx hr
    by_cases hns : ns' = ns
    · subst hns
      simp only [World.setSchema, update_self] at hx
      exact hknown x hx hr
    · simp only [World.setSchema, update_of_ne hns] at hx
      exact h.known ns' x hx hr
  job := hjob

theorem Inv.jobStep (h : Inv w) {o : Option Job} (hjob : ∀ j, o = some j → JobOk w j) : Inv { w with job := o } :=
  ⟨h.apart, h.pos, h.below, h.unique, h.known, hjob⟩

theorem Inv.reserve (h : Inv w) (s : Nat) : Inv (w.reserve s) := by
  unfold World.reserve
  split
  · have hup : World.upcoming { w with
        last := w.upcoming + World.cacheSize - 1, called := true, cache := update w.cache s (List.range' w.upcoming World.cacheSize) } =
        w.upcoming + World.cacheSize := by
      show w.upcoming + World.cacheSize - 1 + 1 = _
      have : World.cacheSize = 64 := rfl
      omega
    refine h.draw ?_ (by rw [hup]; exact Nat.le_add_right _ _) rfl rfl rfl
    have hids := ids_setCache w s (List.range' w.upcoming World.cacheSize)
    have hap := h.apart.reserve (.session s) World.cacheSize h.below
    rw [← hids] at hap
    exact hap
  · exact h

theorem reserve_gate (w : World) (s : Nat) : (w.reserve s).gate = w.gate := by
  unfold World.reserve
  split <;> rfl

/-! ## The steps of `nextFileID` -/

theorem inv_take (h : Inv w) (hn : next w (.take g) = some w') : Inv w' := by
  simp only [next] at hn
  split at hn
  · next id rest hg =>
    cases hn
    have hblock : w.ids (.block g) = id :: rest := by simp [World.ids, hg]
    have hrows : w.ids (.rows g) = [] := by simp [World.ids, hg]
    have hmem : id ∈ w.ids (.block g) := hblock ▸ mem_cons_self
    refine h.hand ?_ (h.apart.fresh _ id hmem) (h.apart.below _ id hmem) rfl rfl rfl rfl rfl
    have hap := h.apart.spend hblock
    have hids : ((w.setGate g ⟨rest, none⟩).hand id).ids = update w.ids (.block g) rest := by
      have := ids_setGate w g ⟨rest, none⟩
      simp only [map_none, getD_none] at this
      rw [← hrows, update_eq_self] at this
      exact this
    rwa [hids]
  · cases hn

theorem inv_query (h : Inv w) (hn : next w (.query g s) = some w') : Inv w' := by
  simp only [next] at hn
  split at hn
  · cases hn
    refine h.draw ?_ (Nat.le_refl _) rfl rfl rfl
    rw [ids_setGate]
    exact (h.apart.clear _).clear _
  · cases hn

theorem inv_nextval (h : Inv w) (hn : next w (.nextval g) = some w') : Inv w' := by
  simp only [next] at hn
  split at hn
  · next s rows hg =>
    split at hn
    · have hr := h.reserve s
      have hgate := reserve_gate w s
      simp only [World.nextval] at hn
      split at hn
      · cases hn
      · next id rest hc =>
        cases hn
        have hrows : (w.reserve s).ids (.rows g) = rows := by simp [World.ids, hgate, hg]
        have hap := hr.apart.shift (a := .session s) (b := .rows g) nofun hc
        refine hr.draw ?_ (Nat.le_refl _) rfl rfl rfl
        -- the three holders that the step names, and no other
        have hids : World.ids { (w.reserve s).setGate g { w.gate g with refill := some (s, rows ++ [id]) } with
              cache := update (w.reserve s).cache s rest } =
            update (update (w.reserve s).ids (.session s) rest) (.rows g) ((w.reserve s).ids (.rows g) ++ [id]) := by
          rw [hrows]
          funext x
          cases x with
          | session s' =>
            by_cases hs : s' = s
            · subst hs
              simp [World.ids]
            · simp [World.ids, hs]
          | rows g' =>
            by_cases hg' : g' = g
            · subst hg'
              simp [World.ids, World.setGate]
            · simp [World.ids, World.setGate, hg']
          | block g' =>
            by_cases hg' : g' = g
            · subst hg'
              simp [World.ids, World.setGate, hgate]
            · simp [World.ids, World.setGate, hg']
        rw [hids]
        exact hap
    · cases hn
  · cases hn

theorem inv_install (h : Inv w) (hn : next w (.install g) = some w') : Inv w' := by
  simp only [next] at hn
  split at hn
  · next s id rest hg =>
    split at hn
    · cases hn
      have hrows : w.ids (.rows g) = id :: rest := by simp [World.ids, hg]
      have hmem : id ∈ w.ids (.rows g) := hrows ▸ mem_cons_self
      refine h.hand ?_ (h.apart.fresh _ id hmem) (h.apart.below _ id hmem) rfl rfl rfl rfl rfl
      have hap := (h.apart.handOver (.rows g) (.block g)).spend (by rw [update_self, hrows])
      rw [update_idem] at hap
      have hids : ((w.setGate g ⟨rest, none⟩).hand id).ids = update (update w.ids (.rows g) []) (.block g) rest :=
        ids_setGate w g ⟨rest, none⟩
      rwa [hids]
    · cases hn
  · cases hn

theorem inv_lose (h : Inv w) (g : Nat) : Inv (w.setGate g ⟨[], none⟩) := by
  refine h.draw ?_ (Nat.le_refl _) rfl rfl rfl
  rw [ids_setGate]
  exact (h.apart.clear _).clear _

/-! ## Namespaces -/

/-- The job does not see a change of another namespace, nor one that keeps what it knows. -/
theorem JobOk.setSchema (h : JobOk w j) {x x' : Schema} (hx : w.schema ns = some x)
    (hreg : x'.registered = x.registered) (hchunks : ∀ id ∈ x'.chunks, id ∈ x.chunks ∨ id ∈ w.used) :
    JobOk (w.setSchema ns (some x')) j := by
  unfold JobOk at h ⊢
  split at h
  · next a ht =>
    obtain ⟨y, hy, hch, hmv⟩ := h
    by_cases ha : a = ns
    · subst ha
      obtain rfl : x = y := some.inj (hx.symm.trans hy)
      refine ⟨x', by simp [World.setSchema], fun hst id hid => ?_, hmv⟩
      exact (hchunks id hid).elim (hch hst id) .inl
    · exact ⟨y, by simpa [World.setSchema, ha] using hy, hch, hmv⟩
  · next src dst ht =>
    obtain ⟨⟨y, hy, hyr⟩, hdst, hcopied⟩ := h
    refine ⟨?_, fun y' hy' => ?_, hcopied⟩
    · by_cases hs : src = ns
      · subst hs
        obtain rfl : x = y := some.inj (hx.symm.trans hy)
        exact ⟨x', by simp [World.setSchema], hreg.trans hyr⟩
      · exact ⟨y, by simpa [World.setSchema, hs] using hy, hyr⟩
    · by_cases hd : dst = ns
      · subst hd
        simp only [World.setSchema, update_self] at hy'
        cases hy'
        exact hreg.trans (hdst x hx)
      · simp only [World.setSchema, update_of_ne hd] at hy'
        exact hdst y' hy'

theorem JobOk.unpinned (h : JobOk w j) (hj : w.job = some j) (hp : pinned w ns = false) (o : Option Schema) :
    JobOk (w.setSchema ns o) j := by
  simp only [pinned, hj, any_some] at hp
  unfold JobOk at h ⊢
  split at h
  · next a ht =>
    rw [ht, decide_eq_false_iff_not] at hp
    obtain ⟨y, hy, hch, hmv⟩ := h
    exact ⟨y, by simpa [World.setSchema, hp] using hy, hch, hmv⟩
  · next src dst ht =>
    simp only [ht, Bool.or_eq_false_iff, decide_eq_false_iff_not] at hp
    obtain ⟨⟨y, hy, hyr⟩, hdst, hcopied⟩ := h
    refine ⟨⟨y, by simpa [World.setSchema, hp.1] using hy, hyr⟩, fun y' hy' => ?_, hcopied⟩
    simp only [World.setSchema, update_of_ne hp.2] at hy'
    exact hdst y' hy'

theorem inv_publish (h : Inv w) {rows : Bool} (hn : next w (.publish ns id rows) = some w') : Inv w' := by
  simp only [next] at hn
  split at hn
  · next hid =>
    have hused : id ∈ w.used := mem_append_left _ hid
    obtain ⟨x, hx, rfl⟩ := map_eq_some_iff.1 hn
    have hchunks : ∀ y ∈ (if rows then id :: x.chunks else x.chunks), y ∈ x.chunks ∨ y ∈ w.used := by
      intro y hy
      cases rows with
      | false => exact .inl hy
      | true =>
        rcases mem_cons.1 hy with rfl | hy
        · exact .inr hused
        · exact .inl hy
    refine h.schema (fun x' hx' hr y hy => ?_) fun j hj => (h.job j hj).setSchema hx rfl hchunks
    cases hx'
    have hold := h.known ns x hx hr
    rcases mem_append.1 hy with hy | hy
    · exact (hchunks y hy).elim (fun hc => hold y (mem_append_left _ hc)) fun hu => hu
    · rcases mem_cons.1 hy with rfl | hy
      · exact hused
      · exact hold y (mem_append_right _ hy)
  · cases hn

theorem inv_restore (h : Inv w) {chunks refs : List Nat} (hn : next w (.restore ns chunks refs) = some w') :
    Inv w' := by
  simp only [next] at hn
  split at hn
  · next hc =>
    cases hn
    refine h.schema (fun x hx hr => ?_) fun j hj => (h.job j hj).unpinned hj hc.2 _
    cases hx
    cases hr
  · cases hn

theorem inv_create (h : Inv w) (hn : next w (.create ns) = some w') : Inv w' := by
  simp only [next] at hn
  split at hn
  · next hc =>
    cases hn
    refine h.schema (fun x hx _ id hid => ?_) fun j hj => (h.job j hj).unpinned hj hc.2 _
    cases hx
    cases hid
  · cases hn

theorem inv_drop (h : Inv w) (hn : next w (.drop ns) = some w') : Inv w' := by
  simp only [next] at hn
  split at hn
  · cases hn
  · next hp =>
    cases hn
    exact h.schema nofun fun j hj => (h.job j hj).unpinned hj (by simpa using hp) _

theorem inv_remove (h : Inv w) (hn : next w (.remove ns id) = some w') : Inv w' := by
  obtain ⟨x, hx, rfl⟩ := map_eq_some_iff.1 hn
  refine h.schema (fun x' hx' hr y hy => ?_) fun j hj =>
    (h.job j hj).setSchema hx rfl fun y hy => .inl (mem_of_mem_filter hy)
  cases hx'
  refine h.known ns x hx hr y ?_
  rcases mem_append.1 hy with hy | hy
  · exact mem_append_left _ (mem_of_mem_filter hy)
  · exact mem_append_right _ (mem_of_mem_filter hy)

/-! ## Adoptions and clones -/

theorem le_vMax {ids : List Nat} : ∀ id ∈ ids, id ≤ ids.foldr max 0 := by
  induction ids with
  | nil => nofun
  | cons a ids ih =>
    intro id hid
    rcases mem_cons.1 hid with rfl | hid
    · exact Nat.le_max_left _ _
    · exact Nat.le_trans (ih id hid) (Nat.le_max_right _ _)

section

variable (h : Inv w)
include h

theorem inv_lock {task : Task} (hn : next w (.lock task s) = some w') : Inv w' := by
  simp only [next] at hn
  split at hn
  · next hc =>
    cases hn
    refine h.jobStep fun j hj => ?_
    cases hj
    have hstart := hc.2
    cases task with
    | adopt ns =>
      cases hx : w.schema ns with
      | none => simp [canStart, hx] at hstart
      | some x => exact ⟨x, hx, fun hst => absurd rfl hst, nofun⟩
    | clone src dst =>
      simp only [canStart, Bool.and_eq_true] at hstart
      obtain ⟨⟨-, hsrc⟩, hdst⟩ := hstart
      refine ⟨?_, fun x hx => ?_, nofun⟩
      · cases hs : w.schema src with
        | none => simp [hs] at hsrc
        | some x => exact ⟨x, rfl, by simpa [hs] using hsrc⟩
      · simp only [hx, all_some, Bool.and_eq_true] at hdst
        exact hdst.1
  · cases hn

theorem inv_chunks (hn : next w .chunks = some w') : Inv w' := by
  simp only [next] at hn
  split at hn
  · next j hj =>
    have hok := h.job j hj
    split at hn
    · unfold JobOk at hok
      split at hn
      · next ns ht =>
        obtain ⟨x, hx, rfl⟩ := map_eq_some_iff.1 hn
        refine h.jobStep fun j' hj' => ?_
        cases hj'
        simp only [JobOk, ht]
        exact ⟨x, hx, fun _ id hid => .inr (le_vMax id hid), nofun⟩
      · next src dst ht =>
        obtain ⟨x, hx, rfl⟩ := map_eq_some_iff.1 hn
        refine h.jobStep fun j' hj' => ?_
        cases hj'
        simp only [ht] at hok
        obtain ⟨⟨y, hy, hr⟩, hdst, hcopied⟩ := hok
        cases hx.symm.trans hy
        simp only [JobOk, ht]
        refine ⟨⟨x, hx, hr⟩, hdst, fun id hid => ?_⟩
        rcases mem_append.1 hid with hid | hid
        · exact h.known src x hx hr id (mem_append_left _ hid)
        · exact hcopied id (mem_append_right _ hid)
    · cases hn
  · cases hn

theorem inv_objects (hn : next w .objects = some w') : Inv w' := by
  simp only [next] at hn
  split at hn
  · next j hj =>
    have hok := h.job j hj
    split at hn
    · next src dst ht =>
      split at hn
      · obtain ⟨x, hx, rfl⟩ := map_eq_some_iff.1 hn
        refine h.jobStep fun j' hj' => ?_
        cases hj'
        simp only [JobOk, ht] at hok ⊢
        obtain ⟨⟨y, hy, hr⟩, hdst, hcopied⟩ := hok
        cases hx.symm.trans hy
        refine ⟨⟨x, hx, hr⟩, hdst, fun id hid => ?_⟩
        rcases mem_append.1 hid with hid | hid
        · exact hcopied id (mem_append_left _ hid)
        · exact h.known src x hx hr id (mem_append_right _ hid)
      · cases hn
    · cases hn
  · cases hn

theorem inv_look (hn : next w .look = some w') : Inv w' := by
  simp only [next] at hn
  split at hn
  · next j hj =>
    have hok := h.job j hj
    split at hn
    · next hc =>
      cases hn
      refine h.jobStep fun j' hj' => ?_
      cases hj'
      unfold JobOk at hok ⊢
      simp only
      split at hok
      · next ns ht =>
        obtain ⟨x, hx, hch, -⟩ := hok
        exact ⟨x, hx, fun _ => hch (by rw [hc.1]; nofun), nofun⟩
      · exact hok
    · cases hn
  · cases hn

theorem inv_setval (hs : Safe w .setval) (hn : next w .setval = some w') : Inv w' := by
  simp only [next] at hn
  split at hn
  · next j hj =>
    have hok := h.job j hj
    split at hn
    · next l hst =>
      cases hn
      have hle := hs j l hj hst
      -- the job's own session forgets what it had reserved
      have hids : World.ids { w with
          last := max l j.vMax, called := true, cache := update w.cache j.session [],
          job := some { j with stage := .moved } } = update w.ids (.session j.session) [] := ids_setCache w j.session []
      have hdraw : Inv { w with last := max l j.vMax, called := true, cache := update w.cache j.session [] } := by
        refine h.draw ?_ hle rfl rfl rfl
        exact (hids ▸ (h.apart.clear (.session j.session)).mono hle)
      refine hdraw.jobStep fun j' hj' => ?_
      cases hj'
      unfold JobOk at hok ⊢
      simp only
      split at hok
      · next ns ht =>
        obtain ⟨x, hx, hch, -⟩ := hok
        exact ⟨x, hx, fun _ => hch (by rw [hst]; nofun), fun _ => Nat.lt_succ_of_le (Nat.le_max_right _ _)⟩
      · exact hok
    · cases hn
  · cases hn

theorem Inv.settled (ns : Nat) {x : Schema} (hfree : ∀ id ∈ x.files, ¬ w.Reserved id)
    (hlt : ∀ id ∈ x.files, id < w.upcoming) :
    Inv { w.setSchema ns (some x) with job := none, log := .settled x.files :: w.log } := by
  have hmem : ∀ id, id ∈ handedIds w.log ++ (x.files ++ settledIds w.log) ↔ id ∈ x.files ++ w.used := by
    simp only [World.used, mem_append]
    tauto
  have hused : World.used { w.setSchema ns (some x) with job := none, log := .settled x.files :: w.log } =
      handedIds w.log ++ (x.files ++ settledIds w.log) := rfl
  have hap := h.apart.use fun id hid y hy => hfree id hid ⟨y, hy⟩
  refine ⟨?_, h.pos, fun id hid => ?_, h.unique, fun ns' x' hx' hr id hid => ?_, nofun⟩
  · rw [hused]
    exact ⟨hap.nodup, hap.disjoint, hap.below, fun y id hid hu => hap.fresh y id hid ((hmem id).1 hu)⟩
  · rw [hused, hmem] at hid
    rcases mem_append.1 hid with hid | hid
    · exact hlt id hid
    · exact h.below id hid
  · rw [hused, hmem]
    by_cases hns : ns' = ns
    · subst hns
      simp only [World.setSchema, update_self] at hx'
      cases hx'
      exact mem_append_left _ hid
    · simp only [World.setSchema, update_of_ne hns] at hx'
      exact mem_append_right _ (h.known ns' x' hx' hr id hid)

theorem inv_commit (hs : Safe w .commit) (hn : next w .commit = some w') : Inv w' := by
  simp only [next] at hn
  split at hn
  · next j hj =>
    have hok := h.job j hj
    split at hn
    · next hstage =>
      unfold JobOk at hok
      simp only [settle] at hn
      split at hn
      · next ns ht =>
        obtain ⟨x, hx, rfl⟩ := map_eq_some_iff.1 hn
        obtain ⟨hfree, hrefs⟩ := hs j ns x hj ht hx
        simp only [ht] at hok
        obtain ⟨y, hy, hch, hmv⟩ := hok
        cases hx.symm.trans hy
        -- the chunk rows have been seen by the maximum, or come from uploads
        have hv : j.vMax < w.upcoming := by
          rcases hstage with hst | ⟨-, hno⟩
          · exact hmv hst
          · simp only [Job.moves, ht, decide_eq_false_iff_not, Nat.not_lt, Nat.le_zero] at hno
            rw [hno]
            exact h.pos
        have hnl : j.stage ≠ .locked := by
          rcases hstage with hst | ⟨hst, -⟩
          · rw [hst]; nofun
          · rw [hst]; nofun
        have hset : Inv _ := h.settled ns (x := { x with registered := true }) hfree fun id hid => by
          rcases mem_append.1 hid with hid | hid
          · rcases hch hnl id hid with hu | hle
            · exact h.below id hu
            · exact Nat.lt_of_le_of_lt hle hv
          · exact hrefs id hid
        exact hset
      · next src dst ht =>
        cases hn
        simp only [ht] at hok
        obtain ⟨-, hdst, hcopied⟩ := hok
        -- everything in the clone has been handed out or settled before
        have hall : ∀ id ∈ ((w.schema dst).getD ⟨true, [], []⟩).chunks ++ j.chunks ++
          (((w.schema dst).getD ⟨true, [], []⟩).refs ++ j.refs),
            id ∈ w.used := by
          have hold : ∀ id ∈ ((w.schema dst).getD ⟨true, [], []⟩).files, id ∈ w.used := by
            cases hd : w.schema dst with
            | none => nofun
            | some x => exact h.known dst x hd (hdst x hd)
          intro id hid
          simp only [mem_append] at hid
          rcases hid with (hid | hid) | (hid | hid)
          · exact hold id (mem_append_left _ hid)
          · exact hcopied id (mem_append_left _ hid)
          · exact hold id (mem_append_right _ hid)
          · exact hcopied id (mem_append_right _ hid)
        refine h.settled _ (fun id hid => ?_) fun id hid => h.below id (hall id hid)
        rintro ⟨y, hy⟩
        exact h.apart.fresh y id hy (hall id hid)
    · cases hn
  · cases hn

theorem inv_next {a : Act} (hs : Safe w a) (hn : next w a = some w') : Inv w' := by
  cases a with
  | take g => exact inv_take h hn
  | query g s => exact inv_query h hn
  | nextval g => exact inv_nextval h hn
  | install g => exact inv_install h hn
  | fail g =>
    simp only [next] at hn
    split at hn
    · cases hn
      exact inv_lose h g
    · cases hn
  | restart g =>
    cases hn
    exact inv_lose h g
  | close s =>
    cases hn
    refine h.draw ?_ (Nat.le_refl _) rfl rfl rfl
    rw [ids_setCache]
    exact h.apart.clear _
  | publish ns id rows => exact inv_publish h hn
  | restore ns chunks refs => exact inv_restore h hn
  | create ns => exact inv_create h hn
  | drop ns => exact inv_drop h hn
  | remove ns id => exact inv_remove h hn
  | lock task s => exact inv_lock h hn
  | chunks => exact inv_chunks h hn
  | objects => exact inv_objects h hn
  | look => exact inv_look h hn
  | setval => exact inv_setval h hs hn
  | commit => exact inv_commit h hs hn
  | rollback =>
    simp only [next] at hn
    split at hn
    · cases hn
    · cases hn
      exact h.jobStep nofun

end

/-- In every run in which no `setval` moves the sequence back and no adopted namespace holds ids
that are drawn or still to come, no file id is used twice. -/
theorem ids_unique (acts : List Act) (w : World) (hok : machine.Allowed Safe World.init acts)
    (hrun : machine.run World.init acts = some w) : Unique w.log :=
  (Conc.Machine.invariant (M := machine) (fun _ _ _ h hs hn => inv_next h hs hn) inv_init hok hrun).unique

def refill (g s : Nat) : List Act := .query g s :: replicate blockSize (.nextval g) ++ [.install g]

/-- A namespace with a file 70 is restored and adopted; the next upload gets 71. -/
theorem adopted_then_allocated :
    ∃ w, machine.run World.init ([.restore 0 [70] [70], .lock (.adopt 0) 9, .chunks, .look, .setval, .commit] ++ refill 0 0) = some w ∧
      w.log = [.handed 71, .settled [70, 70]] ∧ Unique w.log := by
  have hrun : ((machine.run World.init ([.restore 0 [70] [70], .lock (.adopt 0) 9, .chunks, .look, .setval, .commit] ++ refill 0 0)).map
      (·.log)) = some [.handed 71, .settled [70, 70]] := by decide +kernel
  obtain ⟨w, hw, hlog⟩ := map_eq_some_iff.1 hrun
  refine ⟨w, hw, hlog, ids_unique _ w ?_ hw⟩
  -- only the `setval` and the commit have a condition, and nobody has drawn an id before
  have hrest : ∀ w', machine.Allowed Safe w' (refill 0 0) := by
    have hreplicate : ∀ n w', machine.Allowed Safe w' (replicate n (.nextval 0) ++ [.install 0]) := by
      intro n
      induction n with
      | zero => exact fun w' => ⟨trivial, fun _ _ => trivial⟩
      | succ n ih => exact fun w' => ⟨trivial, fun w'' _ => ih w''⟩
    exact fun w' => ⟨trivial, fun w'' _ => hreplicate _ w''⟩
  refine ⟨trivial, fun w₁ h₁ => ⟨trivial, fun w₂ h₂ => ⟨trivial, fun w₃ h₃ => ⟨trivial, fun w₄ h₄ => ?_⟩⟩⟩⟩
  cases h₁
  cases h₂
  cases h₃
  cases h₄
  refine ⟨?_, fun w₅ h₅ => ⟨?_, fun w₆ _ => hrest w₆⟩⟩
  · intro j l hj hst
    cases hj
    cases hst
    decide
  · cases h₅
    intro j ns x hj hns hx
    cases hj
    cases hns
    cases hx
    refine ⟨?_, by decide⟩
    rintro id hid ⟨h, hh⟩
    cases h with
    | session s =>
      simp only [World.ids, World.init, World.setSchema] at hh
      by_cases hs : s = 9
      · subst hs
        simp at hh
      · simp [hs] at hh
    | rows | block => cases hh

/-- Between an adoption's read of `last_value` and its `setval` a gateway draws a block; a third one
gets the same ids. -/
theorem setval_repeats_ids : ¬ ∀ (acts : List Act) (w : World), machine.run World.init acts = some w → Unique w.log := by
  intro hclaim
  have hrun : ((machine.run World.init (refill 0 0 ++ [.restore 0 [10] [10], .lock (.adopt 0) 9, .chunks, .look] ++ refill 1 1 ++
      [.setval, .commit] ++ refill 2 2)).map (·.log)) = some [.handed 65, .settled [10, 10], .handed 65, .handed 1] := by decide +kernel
  obtain ⟨w, hw, hlog⟩ := map_eq_some_iff.1 hrun
  have huniq := hclaim _ w hw
  rw [hlog] at huniq
  exact absurd huniq (by decide)

end Pgvs3.FileIds
