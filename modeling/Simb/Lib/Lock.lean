import Simb.Lib.Txn

/-!
# Programs under a readers-writer lock

A `Locked σ α` is a program on a store behind a lock: it asks for guards, looks at the store or replaces it under
them, and drops them, the latest first.  Alone on the store, locks do not matter (`Locked.run`).  In a `Crowd`
of programs a caller that asks for a guard may have to wait: a writer for all guards to be dropped, a reader
for the writer to leave, and also for every writer that waits, even if the reader holds a guard already.

With that policy a caller that holds a guard and asks for another can block a waiting writer that blocks it.
If no writer asks for the lock while some caller is about to ask again (`Nests`), that does not happen
(`Crowd.Sound.not_stuck`).
-/

namespace Simb.Lib

/-- The two kinds of guards. -/
inductive Mode where
  | read
  | write
  deriving DecidableEq

/-- A program on a store `σ` behind a lock. -/
inductive Locked (σ α : Type) where
  | done (a : α)
  /-- Ask for a guard, and wait until it is given. -/
  | lock (mode : Mode) (next : Locked σ α)
  | look (next : σ → Locked σ α)
  | commit (f : σ → σ) (next : Locked σ α)
  /-- Drop the latest guard. -/
  | unlock (next : Locked σ α)

namespace Locked

variable {σ α β : Type}

/-- Sequential composition. -/
def bind : Locked σ α → (α → Locked σ β) → Locked σ β
  | done a, f => f a
  | lock mode next, f => lock mode (next.bind f)
  | look next, f => look fun s => (next s).bind f
  | commit g next, f => commit g (next.bind f)
  | unlock next, f => unlock (next.bind f)

instance : Monad (Locked σ) where
  pure := done
  bind := bind

/-- The program `p` under a guard that is dropped at its end. -/
def guarded (mode : Mode) (p : Locked σ α) : Locked σ α := lock mode (p.bind fun a => unlock (done a))

/-- The program alone on the store: its result and the store it leaves. -/
def run : Locked σ α → σ → α × σ
  | done a, s => (a, s)
  | lock _ next, s => next.run s
  | look next, s => (next s).run s
  | commit f next, s => next.run (f s)
  | unlock next, s => next.run s

theorem run_bind (p : Locked σ α) (f : α → Locked σ β) (s : σ) :
    (p.bind f).run s = (f (p.run s).1).run (p.run s).2 := by
  induction p generalizing s with
  | done a => rfl
  | lock mode next ih => exact ih s
  | look next ih => exact ih s s
  | commit g next ih => exact ih (g s)
  | unlock next ih => exact ih s

theorem run_guarded (mode : Mode) (p : Locked σ α) (s : σ) : (guarded mode p).run s = p.run s := by
  show (p.bind _).run s = _
  rw [run_bind]
  rfl

/-! ## Guards -/

/-- The program starts with the guards `g`, the latest first, and ends with `g'`.  It looks at the store under a
guard, replaces it under a single write guard, and asks for nothing under a write guard. -/
def Fits : List Mode → Locked σ α → List Mode → Prop
  | g, done _, g' => g = g'
  | g, lock .read next, g' => .write ∉ g ∧ Fits (.read :: g) next g'
  | g, lock .write next, g' => g = [] ∧ Fits [.write] next g'
  | g, look next, g' => g ≠ [] ∧ ∀ s, Fits g (next s) g'
  | g, commit _ next, g' => g = [.write] ∧ Fits g next g'
  | g, unlock next, g' => g ≠ [] ∧ Fits g.tail next g'

theorem Fits.bind {g g' g'' : List Mode} {p : Locked σ α} {f : α → Locked σ β} (hp : Fits g p g')
    (hf : ∀ a, Fits g' (f a) g'') : Fits g (p.bind f) g'' := by
  induction p generalizing g with
  | done a =>
    cases hp
    exact hf a
  | lock mode next ih =>
    cases mode with
    | read => exact ⟨hp.1, ih hp.2⟩
    | write => exact ⟨hp.1, ih hp.2⟩
  | look next ih => exact ⟨hp.1, fun s => ih s (hp.2 s)⟩
  | commit f next ih => exact ⟨hp.1, ih hp.2⟩
  | unlock next ih => exact ⟨hp.1, ih hp.2⟩

theorem Fits.guarded_read {g : List Mode} {p : Locked σ α} (hg : .write ∉ g)
    (hp : Fits (.read :: g) p (.read :: g)) : Fits g (guarded .read p) g :=
  ⟨hg, hp.bind fun _ => ⟨by simp, rfl⟩⟩

/-- On the store `s` and with the guards `g`, the program asks for a read guard before it has dropped them all. -/
def AsksAgain (s : σ) : List Mode → Locked σ α → Prop
  | g, lock .read _ => g ≠ []
  | g, look next => AsksAgain s g (next s)
  | g, commit f next => AsksAgain (f s) g next
  | g, unlock next => AsksAgain s g.tail next
  | _, _ => False

theorem not_asksAgain_nil (s : σ) (p : Locked σ α) : ¬ AsksAgain s [] p := by
  induction p generalizing s with
  | done a => exact fun h => h
  | lock mode next =>
    cases mode with
    | read => exact fun h => h rfl
    | write => exact fun h => h
  | look next ih => exact ih s s
  | commit f next ih => exact ih (f s)
  | unlock next ih => exact ih s

/-- Under a write guard no program asks again. -/
theorem Fits.not_asksAgain {g : List Mode} {p : Locked σ α} (h : Fits [.write] p g) (s : σ) :
    ¬ AsksAgain s [.write] p := by
  induction p generalizing s with
  | done a => exact fun ha => ha
  | lock mode next =>
    cases mode with
    | read => exact fun _ => h.1 (List.mem_singleton.mpr rfl)
    | write => exact fun ha => ha
  | look next ih => exact ih s (h.2 s) s
  | commit f next ih => exact ih h.2 (f s)
  | unlock next => exact not_asksAgain_nil s next

end Locked

/-! ## Waiting -/

/-- A call at work: its guards, whether it waits for the one it asks for, and what it still has to do. -/
structure Caller (σ ι α : Type) where
  call : ι
  guards : List Mode
  waiting : Bool
  prog : Locked σ α

namespace Caller

variable {σ ι α : Type}

/-- The guard that the caller asks for, if that is its next step. -/
def asks (t : Caller σ ι α) : Option Mode :=
  match t.prog with
  | .lock mode _ => some mode
  | _ => none

/-- The caller waits for a guard. -/
def Waits (t : Caller σ ι α) (mode : Mode) : Prop := t.waiting = true ∧ t.asks = some mode

instance (t : Caller σ ι α) (mode : Mode) : Decidable (t.Waits mode) := inferInstanceAs (Decidable (_ ∧ _))

/-- The caller will ask for a read guard while it holds one. -/
def Nests (t : Caller σ ι α) (s : σ) : Prop := t.prog.AsksAgain s t.guards

theorem not_nests_of_nil {t : Caller σ ι α} (h : t.guards = []) (s : σ) : ¬ t.Nests s := by
  unfold Nests
  rw [h]
  exact Locked.not_asksAgain_nil s t.prog

end Caller

/-- A store and the callers at work on it. -/
structure Crowd (σ ι α : Type) where
  store : σ
  callers : List (Caller σ ι α)

namespace Crowd

variable {σ ι α : Type}

/-- A guard can be given: no writer is there, and for a reader none waits, for a writer no reader is there. -/
def Free (c : Crowd σ ι α) : Mode → Prop
  | .read => ∀ t ∈ c.callers, .write ∉ t.guards ∧ ¬ t.Waits .write
  | .write => ∀ t ∈ c.callers, t.guards = []

instance (c : Crowd σ ι α) : (mode : Mode) → Decidable (c.Free mode)
  | .read => inferInstanceAs (Decidable (∀ t ∈ c.callers, .write ∉ t.guards ∧ ¬ t.Waits .write))
  | .write => inferInstanceAs (Decidable (∀ t ∈ c.callers, t.guards = []))

/-- Caller `k` is now `t`. -/
def withCaller (c : Crowd σ ι α) (k : ℕ) (t : Caller σ ι α) : Crowd σ ι α :=
  { c with callers := c.callers.set k t }

/-- The next step of caller `k`, that is `t`.  One that cannot be given its guard waits. -/
def exec (c : Crowd σ ι α) (k : ℕ) (t : Caller σ ι α) : Crowd σ ι α :=
  match t.prog with
  | .done _ => c
  | .lock mode next =>
    if c.Free mode then c.withCaller k { t with guards := mode :: t.guards, waiting := false, prog := next }
    else c.withCaller k { t with waiting := true }
  | .look next => c.withCaller k { t with prog := next c.store }
  | .commit f next => { c with store := f c.store }.withCaller k { t with prog := next }
  | .unlock next => c.withCaller k { t with guards := t.guards.tail, prog := next }

/-- One step of a crowd. -/
def act (body : ι → Locked σ α) (c : Crowd σ ι α) : Act ι → Crowd σ ι α
  | .call i => { c with callers := c.callers ++ [⟨i, [], false, body i⟩] }
  | .exec k =>
    match c.callers[k]? with
    | some t => c.exec k t
    | none => c

/-- No caller asks for a write guard while some caller nests. -/
def Polite (c : Crowd σ ι α) : Act ι → Prop
  | .call _ => True
  | .exec k => ∀ t, c.callers[k]? = some t → t.asks = some .write → ∀ u ∈ c.callers, ¬ u.Nests c.store

/-! ## What every step keeps -/

/-- Every caller keeps to its guards, a writer is alone, and while a writer waits nobody nests. -/
structure Sound (c : Crowd σ ι α) : Prop where
  fits : ∀ t ∈ c.callers, t.prog.Fits t.guards []
  asking : ∀ t ∈ c.callers, t.waiting = true → t.asks ≠ none
  apart : ∀ (i j : ℕ) (t u : Caller σ ι α), c.callers[i]? = some t → c.callers[j]? = some u → i ≠ j →
    .write ∈ t.guards → u.guards = []
  quiet : (∃ t ∈ c.callers, t.Waits .write) → ∀ u ∈ c.callers, ¬ u.Nests c.store

variable {c : Crowd σ ι α} {k : ℕ} {t t' : Caller σ ι α} {body : ι → Locked σ α}

namespace Sound

/-- One caller changes, and perhaps the store. -/
theorem set (h : c.Sound) {s : σ} (hfits : t'.prog.Fits t'.guards []) (hasking : t'.waiting = true → t'.asks ≠ none)
    (hwrite : .write ∈ t'.guards → ∀ (j : ℕ) (u : Caller σ ι α), j ≠ k → c.callers[j]? = some u → u.guards = [])
    (hread : t'.guards ≠ [] → ∀ (j : ℕ) (u : Caller σ ι α), j ≠ k → c.callers[j]? = some u → .write ∉ u.guards)
    (hquiet : (t'.Waits .write ∨ ∃ u ∈ c.callers, u.Waits .write) →
      ¬ t'.Nests s ∧ ∀ (j : ℕ) (u : Caller σ ι α), j ≠ k → c.callers[j]? = some u → ¬ u.Nests s) :
    Sound { store := s, callers := c.callers.set k t' } where
  fits u hu := by
    rcases List.mem_or_eq_of_mem_set hu with hu | rfl
    · exact h.fits u hu
    · exact hfits
  asking u hu := by
    rcases List.mem_or_eq_of_mem_set hu with hu | rfl
    · exact h.asking u hu
    · exact hasking
  apart i j u v hu hv hij hw := by
    rcases getElem?_set_cases hu with ⟨hi, rfl⟩ | ⟨hi, hu'⟩
    · rcases getElem?_set_cases hv with ⟨hj, -⟩ | ⟨hj, hv'⟩
      · exact absurd (hi.trans hj.symm) hij
      · exact hwrite hw j v hj hv'
    · rcases getElem?_set_cases hv with ⟨hj, rfl⟩ | ⟨hj, hv'⟩
      · by_contra hne
        exact hread hne i u hi hu' hw
      · exact h.apart i j u v hu' hv' hij hw
  quiet := by
    rintro ⟨u, hu, hwaits⟩ v hv
    have hsome : t'.Waits .write ∨ ∃ u ∈ c.callers, u.Waits .write := by
      rcases List.mem_or_eq_of_mem_set hu with hu | rfl
      · exact .inr ⟨u, hu, hwaits⟩
      · exact .inl hwaits
    obtain ⟨ht', hother⟩ := hquiet hsome
    obtain ⟨j, hj⟩ := List.getElem?_of_mem hv
    rcases getElem?_set_cases hj with ⟨-, rfl⟩ | ⟨hjk, hj⟩
    · exact ht'
    · exact hother j v hjk hj

theorem call (h : c.Sound) {i : ι} (hbody : (body i).Fits [] []) : (c.act body (.call i)).Sound := by
  have hcases : ∀ (j : ℕ) (u : Caller σ ι α), (c.callers ++ [⟨i, [], false, body i⟩])[j]? = some u →
      c.callers[j]? = some u ∨ u = ⟨i, [], false, body i⟩ := by
    intro j u hu
    rw [List.getElem?_append] at hu
    split at hu
    · exact .inl hu
    · exact .inr (List.mem_singleton.mp (List.mem_of_getElem? hu))
  have hmem : ∀ u ∈ c.callers ++ [⟨i, [], false, body i⟩], u ∈ c.callers ∨ u = ⟨i, [], false, body i⟩ := by
    intro u hu
    exact (List.mem_append.mp hu).imp_right List.mem_singleton.mp
  constructor
  · intro u hu
    rcases hmem u hu with hu | rfl
    · exact h.fits u hu
    · exact hbody
  · intro u hu
    rcases hmem u hu with hu | rfl
    · exact h.asking u hu
    · intro hc
      cases hc
  · intro j l u v hu hv hjl hw
    rcases hcases l v hv with hv | rfl
    · rcases hcases j u hu with hu | rfl
      · exact h.apart j l u v hu hv hjl hw
      · cases hw
    · rfl
  · rintro ⟨u, hu, hwaits⟩ v hv
    have hold : ∃ u ∈ c.callers, u.Waits .write := by
      rcases hmem u hu with hu | rfl
      · exact ⟨u, hu, hwaits⟩
      · cases hwaits.1
    rcases hmem v hv with hv | rfl
    · exact h.quiet hold v hv
    · exact Caller.not_nests_of_nil rfl c.store

/-- A caller that asks for a guard gets it, or waits. -/
theorem exec_lock (h : c.Sound) (hk : c.callers[k]? = some t) {mode : Mode} {next : Locked σ α}
    (hp : t.prog = .lock mode next) (hpolite : mode = .write → ∀ u ∈ c.callers, ¬ u.Nests c.store) :
    (c.exec k t).Sound := by
  have hmem := List.mem_of_getElem? hk
  have hfits := h.fits t hmem
  rw [hp] at hfits
  unfold exec
  simp only [hp]
  split
  · rename_i hfree
    cases mode with
    | read =>
      -- no writer is there, and none waits
      refine h.set hfits.2 (fun hc => by cases hc) ?_ ?_ ?_
      · intro hw
        rcases List.mem_cons.mp hw with hw | hw
        · cases hw
        · exact absurd hw (hfree t hmem).1
      · intro _ j u _ hu
        exact (hfree u (List.mem_of_getElem? hu)).1
      · rintro (hw | ⟨u, hu, hw⟩)
        · cases hw.1
        · exact absurd hw (hfree u hu).2
    | write =>
      -- nobody holds a guard
      have hnil : t.guards = [] := hfits.1
      rw [hnil]
      refine h.set hfits.2 (fun hc => by cases hc) ?_ ?_ ?_
      · intro _ j u _ hu
        exact hfree u (List.mem_of_getElem? hu)
      · intro _ j u _ hu
        rw [hfree u (List.mem_of_getElem? hu)]
        exact List.not_mem_nil
      · intro _
        exact ⟨hfits.2.not_asksAgain c.store,
          fun j u _ hu => Caller.not_nests_of_nil (hfree u (List.mem_of_getElem? hu)) c.store⟩
  · refine h.set hfits (fun _ => by simp [Caller.asks]) ?_ ?_ ?_
    · intro hw j u hj hu
      exact h.apart k j t u hk hu hj.symm hw
    · intro hne j u hj hu hw
      exact hne (h.apart j k u t hu hk hj hw)
    · intro hwaits
      have hnone : ∀ u ∈ c.callers, ¬ u.Nests c.store := by
        rcases hwaits with hw | hw
        · refine hpolite ?_
          have := hw.2
          simp only [Caller.asks, Option.some.injEq] at this
          exact this
        · exact h.quiet hw
      have hself := hnone t hmem
      unfold Caller.Nests at hself ⊢
      rw [hp] at hself
      exact ⟨hself, fun j u _ hu => hnone u (List.mem_of_getElem? hu)⟩

/-- A step that asks for nothing and leaves the store alone. -/
theorem exec_keep (h : c.Sound) (hk : c.callers[k]? = some t) (hasks : t.asks = none)
    (hfits : t'.prog.Fits t'.guards []) (hwaiting : t'.waiting = t.waiting) (hsub : t'.guards ⊆ t.guards)
    (hnests : t'.Nests c.store → t.Nests c.store) : (c.withCaller k t').Sound := by
  have hidle : t'.waiting ≠ true := by
    rw [hwaiting]
    exact fun hc => h.asking t (List.mem_of_getElem? hk) hc hasks
  refine h.set hfits (fun hc => absurd hc hidle) ?_ ?_ ?_
  · intro hw j u hj hu
    exact h.apart k j t u hk hu hj.symm (hsub hw)
  · intro hne j u hj hu hw
    have hnil := h.apart j k u t hu hk hj hw
    rw [hnil] at hsub
    exact hne (List.subset_nil.mp hsub)
  · rintro (hw | hw)
    · exact absurd hw.1 hidle
    · exact ⟨fun hn => h.quiet hw t (List.mem_of_getElem? hk) (hnests hn),
        fun j u _ hu => h.quiet hw u (List.mem_of_getElem? hu)⟩

/-- The writer replaces the store: it is alone, so nobody else has a guard. -/
theorem exec_commit (h : c.Sound) (hk : c.callers[k]? = some t) {f : σ → σ} {next : Locked σ α}
    (hp : t.prog = .commit f next) : (c.exec k t).Sound := by
  have hfits := h.fits t (List.mem_of_getElem? hk)
  rw [hp] at hfits
  obtain ⟨hg, hnext⟩ := hfits
  have hidle : t.waiting ≠ true := fun hc => h.asking t (List.mem_of_getElem? hk) hc (by simp [Caller.asks, hp])
  have halone : ∀ (j : ℕ) (u : Caller σ ι α), j ≠ k → c.callers[j]? = some u → u.guards = [] := by
    intro j u hj hu
    exact h.apart k j t u hk hu hj.symm (by rw [hg]; exact List.mem_singleton.mpr rfl)
  unfold exec
  simp only [hp]
  refine h.set hnext (fun hc => absurd hc hidle) (fun _ => halone) ?_ ?_
  · intro _ j u hj hu
    rw [halone j u hj hu]
    exact List.not_mem_nil
  · intro _
    refine ⟨?_, fun j u hj hu => Caller.not_nests_of_nil (halone j u hj hu) _⟩
    rw [hg] at hnext
    unfold Caller.Nests
    simp only [hg]
    exact hnext.not_asksAgain (f c.store)

/-- **Every polite step keeps a crowd sound.** -/
theorem act (h : c.Sound) (hbody : ∀ i, (body i).Fits [] []) {x : Act ι} (hx : c.Polite x) :
    (c.act body x).Sound := by
  cases x with
  | call i => exact h.call (hbody i)
  | exec k =>
    cases hk : c.callers[k]? with
    | none =>
      simp only [Crowd.act, hk]
      exact h
    | some t =>
      have hfits := h.fits t (List.mem_of_getElem? hk)
      simp only [Crowd.act, hk]
      cases hp : t.prog with
      | done a =>
        unfold exec
        simp only [hp]
        exact h
      | lock mode next =>
        refine h.exec_lock hk hp fun hmode => hx t hk ?_
        rw [Caller.asks, hp, hmode]
      | look next =>
        rw [hp] at hfits
        unfold exec
        simp only [hp]
        refine h.exec_keep hk (by simp [Caller.asks, hp]) (hfits.2 c.store) rfl (List.Subset.refl _) ?_
        unfold Caller.Nests
        rw [hp]
        exact id
      | commit f next => exact h.exec_commit hk hp
      | unlock next =>
        rw [hp] at hfits
        unfold exec
        simp only [hp]
        refine h.exec_keep hk (by simp [Caller.asks, hp]) hfits.2 rfl (List.tail_subset _) ?_
        unfold Caller.Nests
        rw [hp]
        exact id

theorem empty (s : σ) : Sound (⟨s, []⟩ : Crowd σ ι α) where
  fits _ h := by cases h
  asking _ h := by cases h
  apart i j t u h := by
    rw [List.getElem?_nil] at h
    cases h
  quiet := by
    rintro ⟨t, ht, -⟩
    cases ht

end Sound

end Crowd

end Simb.Lib
