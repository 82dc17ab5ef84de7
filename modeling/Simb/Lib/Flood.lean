import Mathlib

/-!
# Flooding

Nodes spread messages by passing each one on to their neighbours.  A message has a key, and a node takes only the first
message of each key, whether it publishes it itself or gets it over a link; the others are dropped.  Links lose nothing
and keep the order, and nothing is sent back to the neighbour it came from.

* `Sound`: no message goes over a link twice, and what a node has seen each of its neighbours has seen or will see.  So
  when all links are quiet, what one node has seen is known wherever a path leads (`Sound.mem_of_path`), and a link never
  carries more than was published (`Sound.length_sent_le`).
* `Ordered`: if nothing is published before what it depends on was seen, then nothing is seen before what it depends on,
  anywhere (`Ordered.publish`, `Ordered.arrive`).
-/

namespace Simb.Lib

/-- The state of a flood. -/
structure Flood (ι μ : Type) where
  /-- What each node has seen, oldest first. -/
  seen : ι → List μ
  /-- What was put on each link, oldest first. -/
  sent : ι → ι → List μ
  /-- How much of it has arrived. -/
  got : ι → ι → ℕ

namespace Flood

variable {ι μ κ : Type}

/-- Nothing has been published. -/
def start : Flood ι μ := ⟨fun _ => [], fun _ _ => [], fun _ _ => 0⟩

section

variable (key : μ → κ) (linked : ι → ι → Prop) (f : Flood ι μ)

/-- Node `i` has seen a message with the key of `m`. -/
def Knows (i : ι) (m : μ) : Prop := key m ∈ (f.seen i).map key

/-- The next message on the link from `i` to `j`. -/
def arriving (i j : ι) : Option μ := (f.sent i j)[f.got i j]?

/-- Everything has arrived. -/
def Quiet : Prop := ∀ i j, f.got i j = (f.sent i j).length

/-- No node sees a message twice, and no link carries one twice; what arrived is known, and what a node has seen is on
the link to each neighbour, or known there. -/
structure Sound : Prop where
  distinct : ∀ i, ((f.seen i).map key).Nodup
  sublist : ∀ i j, (f.sent i j).Sublist (f.seen i)
  along : ∀ i j, ∀ m ∈ f.sent i j, linked i j
  got_le : ∀ i j, f.got i j ≤ (f.sent i j).length
  arrived : ∀ i j, ∀ m ∈ (f.sent i j).take (f.got i j), f.Knows key j m
  passed : ∀ i j, linked i j → ∀ m ∈ f.seen i, m ∈ f.sent i j ∨ f.Knows key j m

/-- Messages with the same key are the same. -/
def Clear : Prop := ∀ i j, ∀ m ∈ f.seen i, ∀ m' ∈ f.seen j, key m = key m' → m = m'

variable [DecidableEq ι] [DecidableEq κ] [DecidableRel linked]

instance (i : ι) (m : μ) : Decidable (f.Knows key i m) := inferInstanceAs (Decidable (_ ∈ _))

/-- Node `i` takes `m` as new, and passes it on to all neighbours but the one it came from. -/
def take (i : ι) (source : Option ι) (m : μ) : Flood ι μ where
  seen := Function.update f.seen i (f.seen i ++ [m])
  sent := Function.update f.sent i fun j =>
    if linked i j ∧ source ≠ some j then f.sent i j ++ [m] else f.sent i j
  got := f.got

/-- Node `i` publishes `m`, unless it is known there. -/
def publish (i : ι) (m : μ) : Flood ι μ := if f.Knows key i m then f else f.take linked i none m

/-- The next message on the link from `i` to `j` has arrived. -/
def advance (i j : ι) : Flood ι μ :=
  { f with got := Function.update f.got i (Function.update (f.got i) j (f.got i j + 1)) }

/-- The next message on the link from `i` to `j` arrives, if there is one, and is taken if it is not known. -/
def arrive (i j : ι) : Flood ι μ :=
  match f.arriving i j with
  | none => f
  | some m => (if f.Knows key j m then f else f.take linked j (some i) m).advance i j

/-- The message that node `j` takes when the next one arrives from `i`. -/
def taken (i j : ι) : Option μ := (f.arriving i j).filter fun m => ¬ f.Knows key j m

end

/-- Every message of the list has all that it depends on before it. -/
def InOrder (dep : μ → μ → Prop) (l : List μ) : Prop := ∀ a m b, l = a ++ m :: b → ∀ m', dep m' m → m' ∈ a

/-- What a message depends on was seen before it, and comes before it on a link unless it is there already. -/
structure Ordered (dep : ι → μ → μ → Prop) (f : Flood ι μ) : Prop where
  node : ∀ i, InOrder (dep i) (f.seen i)
  link : ∀ i j a m b, f.sent i j = a ++ m :: b → ∀ m', dep i m' m → m' ∈ a ∨ m' ∈ f.seen j

variable {key : μ → κ} {linked : ι → ι → Prop} {f : Flood ι μ}
variable {dep : ι → μ → μ → Prop} {i j k : ι} {m m' : μ} {source : Option ι}

theorem Knows.mono {g : Flood ι μ} (hsub : ∀ m ∈ f.seen i, m ∈ g.seen i) (h : f.Knows key i m) : g.Knows key i m := by
  obtain ⟨m', hm', heq⟩ := List.mem_map.mp h
  exact List.mem_map.mpr ⟨m', hsub m' hm', heq⟩

theorem knows_of_mem (h : m ∈ f.seen i) : f.Knows key i m := List.mem_map_of_mem h

/-- What is known is seen, if no keys clash. -/
theorem Clear.mem (h : f.Clear key) (hm : m ∈ f.seen i) (hk : f.Knows key j m) : m ∈ f.seen j := by
  obtain ⟨m', hm', heq⟩ := List.mem_map.mp hk
  rw [h i j m hm m' hm' heq.symm]
  exact hm'

/-- A list with one more element, taken apart: the cut is at the last element, or further up. -/
theorem append_singleton_eq_append_cons {l a b : List μ} {x y : μ} (h : l ++ [x] = a ++ y :: b) :
    (a = l ∧ y = x ∧ b = []) ∨ ∃ b', l = a ++ y :: b' ∧ b = b' ++ [x] := by
  rcases List.append_eq_append_iff.mp h with ⟨c, ha, hc⟩ | ⟨c, hl, hc⟩
  · cases c with
    | nil =>
      simp only [List.nil_append, List.cons.injEq] at hc
      exact .inl ⟨by simpa using ha, hc.1.symm, hc.2.symm⟩
    | cons z c => simp at hc
  · cases c with
    | nil =>
      simp only [List.nil_append, List.cons.injEq] at hc
      exact .inl ⟨by simpa using hl.symm, hc.1, hc.2⟩
    | cons z c =>
      simp only [List.cons_append, List.cons.injEq] at hc
      obtain ⟨rfl, rfl⟩ := hc
      exact .inr ⟨c, hl, rfl⟩

/-! ## What every node gets to know -/

theorem sound_start (key : μ → κ) (linked : ι → ι → Prop) : (start : Flood ι μ).Sound key linked where
  distinct _ := List.nodup_nil
  sublist _ _ := List.Sublist.slnil
  along _ _ _ h := absurd h List.not_mem_nil
  got_le _ _ := le_rfl
  arrived _ _ _ h := absurd h List.not_mem_nil
  passed _ _ _ _ h := absurd h List.not_mem_nil

/-- A message that arrives was put on the link, so its sender has seen it. -/
theorem Sound.mem_of_arriving (h : f.Sound key linked) (hm : f.arriving i j = some m) : linked i j ∧ m ∈ f.seen i := by
  have hsent := List.mem_of_getElem? hm
  exact ⟨h.along i j m hsent, (h.sublist i j).subset hsent⟩

/-- A new message arrives at another node than its sender. -/
theorem Sound.ne_of_taken (h : f.Sound key linked) (hm : f.arriving i j = some m) (hk : ¬ f.Knows key j m) : i ≠ j := by
  rintro rfl
  exact hk (knows_of_mem (h.mem_of_arriving hm).2)

/-- When everything has arrived, a neighbour knows all that a node has seen. -/
theorem Sound.knows_of_quiet (h : f.Sound key linked) (hq : f.Quiet) (hl : linked i j) (hm : m ∈ f.seen i) :
    f.Knows key j m := by
  rcases h.passed i j hl m hm with hsent | hk
  · refine h.arrived i j m ?_
    rw [hq i j, List.take_length]
    exact hsent
  · exact hk

/-- **Everything gets everywhere.**  When everything has arrived, what a node has seen was seen wherever a path of links
leads from it. -/
theorem Sound.mem_of_path (h : f.Sound key linked) (hc : f.Clear key) (hq : f.Quiet) (hm : m ∈ f.seen i)
    (hpath : Relation.ReflTransGen linked i j) : m ∈ f.seen j := by
  induction hpath with
  | refl => exact hm
  | tail _ hl ih => exact hc.mem ih (h.knows_of_quiet hq hl ih)

/-- **Nothing goes over a link twice.**  A link has carried no more messages than there are in any list of all that was
seen. -/
theorem Sound.length_sent_le (h : f.Sound key linked) {made : List μ} (hmade : ∀ m ∈ f.seen i, m ∈ made) (j : ι) :
    (f.sent i j).length ≤ made.length := by
  have hnodup := (List.Nodup.of_map key (h.distinct i)).sublist (h.sublist i j)
  exact (hnodup.subperm fun m hm => hmade m ((h.sublist i j).subset hm)).length_le

/-- A node knows less than all messages, if it does not know one of them. -/
theorem Sound.length_seen_lt (h : f.Sound key linked) {made : List μ} (hmade : ∀ m ∈ f.seen i, m ∈ made) (hm : m ∈ made)
    (hnew : ¬ f.Knows key i m) : (f.seen i).length < made.length := by
  have hnodup : (f.seen i ++ [m]).Nodup := by
    refine List.Nodup.append (List.Nodup.of_map key (h.distinct i)) (List.nodup_singleton m) fun x hx hx' => ?_
    rw [List.mem_singleton.mp hx'] at hx
    exact hnew (knows_of_mem hx)
  have hsub : ∀ x ∈ f.seen i ++ [m], x ∈ made := by
    intro x hx
    rcases List.mem_append.mp hx with hx | hx
    · exact hmade x hx
    · rw [List.mem_singleton.mp hx]
      exact hm
  have hle := (hnodup.subperm hsub).length_le
  rw [List.length_append, List.length_singleton] at hle
  exact hle

theorem clear_start (key : μ → κ) : (start : Flood ι μ).Clear key := fun _ _ _ h => absurd h List.not_mem_nil

/-! ## Order -/

theorem ordered_start (dep : ι → μ → μ → Prop) : (start : Flood ι μ).Ordered dep where
  node _ a m b h := by simp [start] at h
  link _ _ a m b h := by simp [start] at h

/-- Only what was seen matters. -/
theorem Ordered.mono {dep' : ι → μ → μ → Prop} (h : f.Ordered dep) (hs : f.Sound key linked)
    (hdep : ∀ i, ∀ m ∈ f.seen i, ∀ m', dep' i m' m → dep i m' m) : f.Ordered dep' where
  node i a m b heq m' hm' := h.node i a m b heq m' (hdep i m (by rw [heq]; simp) m' hm')
  link i j a m b heq m' hm' :=
    h.link i j a m b heq m' (hdep i m ((hs.sublist i j).subset (by rw [heq]; simp)) m' hm')

/-- What a message that was seen depends on was seen. -/
theorem Ordered.mem (h : f.Ordered dep) (hm : m ∈ f.seen i) (hdep : dep i m' m) : m' ∈ f.seen i := by
  obtain ⟨a, b, heq⟩ := List.append_of_mem hm
  rw [heq]
  exact List.mem_append_left _ (h.node i a m b heq m' hdep)

/-- What the next message on a link depends on was seen at its other end. -/
theorem Ordered.dep_of_arriving (h : f.Ordered dep) (hs : f.Sound key linked) (hc : f.Clear key)
    (hm : f.arriving i j = some m) (hdep : dep i m' m) : m' ∈ f.seen j := by
  obtain ⟨hlt, hget⟩ := List.getElem?_eq_some_iff.mp hm
  have hsplit : f.sent i j = (f.sent i j).take (f.got i j) ++ m :: (f.sent i j).drop (f.got i j + 1) := by
    rw [← hget, ← List.drop_eq_getElem_cons hlt, List.take_append_drop]
  rcases h.link i j _ m _ hsplit m' hdep with hmem | hmem
  · have hseen := (hs.sublist i j).subset (List.mem_of_mem_take hmem)
    exact hc.mem hseen (hs.arrived i j m' hmem)
  · exact hmem

/-! ## An arrival -/

variable [DecidableEq ι]

theorem got_advance (f : Flood ι μ) (i j k l : ι) :
    (f.advance i j).got k l = if k = i ∧ l = j then f.got k l + 1 else f.got k l := by
  unfold advance
  by_cases hk : k = i
  · subst hk
    by_cases hl : l = j
    · subst hl
      simp
    · simp [hl]
  · simp [hk]

theorem Sound.advance (h : f.Sound key linked) (hm : f.arriving i j = some m) (hk : f.Knows key j m) :
    (f.advance i j).Sound key linked := by
  obtain ⟨hlt, hget⟩ := List.getElem?_eq_some_iff.mp hm
  refine ⟨h.distinct, h.sublist, h.along, fun k l => ?_, fun k l m' hm' => ?_, h.passed⟩
  · rw [got_advance]
    split
    · rename_i hkl
      rw [hkl.1, hkl.2]
      exact hlt
    · exact h.got_le k l
  · rw [got_advance] at hm'
    split at hm'
    · rename_i hkl
      obtain ⟨rfl, rfl⟩ := hkl
      rw [show (f.advance k l).sent = f.sent from rfl, List.take_succ_eq_append_getElem hlt, List.mem_append,
        List.mem_singleton] at hm'
      rcases hm' with hm' | rfl
      · exact h.arrived k l m' hm'
      · rw [hget]
        exact hk
    · exact h.arrived k l m' hm'

/-! ## Taking a message -/

section

variable [DecidableRel linked]

theorem seen_take (linked : ι → ι → Prop) [DecidableRel linked] (f : Flood ι μ) (i k : ι) (source : Option ι) (m : μ) :
    (f.take linked i source m).seen k = if k = i then f.seen k ++ [m] else f.seen k := by
  unfold take
  by_cases hk : k = i
  · subst hk
    simp
  · simp [hk]

theorem sent_take (linked : ι → ι → Prop) [DecidableRel linked] (f : Flood ι μ) (i k j : ι) (source : Option ι) (m : μ) :
    (f.take linked i source m).sent k j =
      if k = i ∧ linked k j ∧ source ≠ some j then f.sent k j ++ [m] else f.sent k j := by
  unfold take
  by_cases hk : k = i
  · subst hk
    simp
  · simp [hk]

theorem mem_seen_take (h : m' ∈ f.seen k) : m' ∈ (f.take linked i source m).seen k := by
  rw [seen_take]
  split
  · exact List.mem_append_left _ h
  · exact h

theorem mem_take_self : m ∈ (f.take linked i source m).seen i := by
  rw [seen_take, if_pos rfl]
  exact List.mem_append_right _ (List.mem_singleton_self m)

/-- What node `k` has seen after node `i` has taken `m`. -/
theorem mem_seen_take_iff : m' ∈ (f.take linked i source m).seen k ↔ m' ∈ f.seen k ∨ k = i ∧ m' = m := by
  rw [seen_take]
  split
  · rename_i hk
    simp [hk]
  · rename_i hk
    simp [hk]

theorem knows_take (h : f.Knows key k m') : (f.take linked i source m).Knows key k m' := h.mono fun _ => mem_seen_take

theorem Sound.take (h : f.Sound key linked) (hnew : ¬ f.Knows key i m) (hsource : ∀ j, source = some j → f.Knows key j m) :
    (f.take linked i source m).Sound key linked where
  distinct k := by
    rw [seen_take]
    split
    · rename_i hk
      subst hk
      rw [List.map_append, List.nodup_append]
      refine ⟨h.distinct k, by simp, ?_⟩
      rintro x hx y hy rfl
      rw [List.mem_singleton.mp hy] at hx
      exact hnew hx
    · exact h.distinct k
  sublist k j := by
    rw [sent_take, seen_take]
    split_ifs with hs hk hk
    · exact (h.sublist k j).append (List.Sublist.refl _)
    · exact absurd hs.1 hk
    · exact (h.sublist k j).trans (List.sublist_append_left _ _)
    · exact h.sublist k j
  along k j m' hm' := by
    rw [sent_take] at hm'
    split at hm'
    · rename_i hs
      exact hs.2.1
    · exact h.along k j m' hm'
  got_le k j := by
    have hle := h.got_le k j
    rw [sent_take]
    split
    · rw [List.length_append]
      exact Nat.le_add_right_of_le hle
    · exact hle
  arrived k j m' hm' := by
    refine knows_take (h.arrived k j m' ?_)
    change m' ∈ ((f.take linked i source m).sent k j).take (f.got k j) at hm'
    rw [sent_take] at hm'
    split at hm'
    · rwa [List.take_append_of_le_length (h.got_le k j)] at hm'
    · exact hm'
  passed k j hkj m' hm' := by
    rw [sent_take]
    rcases mem_seen_take_iff.mp hm' with hold | ⟨rfl, rfl⟩
    · refine (h.passed k j hkj m' hold).imp (fun hsent => ?_) knows_take
      split
      · exact List.mem_append_left _ hsent
      · exact hsent
    · by_cases hs : source = some j
      · exact .inr (knows_take (hsource j hs))
      · rw [if_pos ⟨rfl, hkj, hs⟩]
        exact .inl (List.mem_append_right _ (List.mem_singleton_self _))

theorem Clear.take (h : f.Clear key) (hm : ∀ j, ∀ m' ∈ f.seen j, key m' = key m → m' = m) :
    (f.take linked i source m).Clear key := by
  intro k l m₁ h₁ m₂ h₂ heq
  rcases mem_seen_take_iff.mp h₁ with hold₁ | ⟨-, rfl⟩ <;> rcases mem_seen_take_iff.mp h₂ with hold₂ | ⟨-, rfl⟩
  · exact h k l m₁ hold₁ m₂ hold₂ heq
  · exact hm k m₁ hold₁ heq
  · exact (hm l m₂ hold₂ heq.symm).symm
  · rfl

theorem Ordered.take (h : f.Ordered dep) (hs : f.Sound key linked) (hc : f.Clear key)
    (hdep : ∀ m', dep i m' m → m' ∈ f.seen i) : (f.take linked i source m).Ordered dep where
  node k a m₁ b heq m' hm' := by
    rw [seen_take] at heq
    split at heq
    · rename_i hk
      subst hk
      rcases append_singleton_eq_append_cons heq with ⟨rfl, rfl, -⟩ | ⟨b', hold, -⟩
      · exact hdep m' hm'
      · exact h.node k a m₁ b' hold m' hm'
    · exact h.node k a m₁ b heq m' hm'
  link k l a m₁ b heq m' hm' := by
    rw [sent_take] at heq
    split at heq
    · rename_i hkl
      obtain ⟨rfl, hl, -⟩ := hkl
      rcases append_singleton_eq_append_cons heq with ⟨rfl, rfl, -⟩ | ⟨b', hold, -⟩
      · -- what the new message depends on is on the link already, or known at its other end
        have hseen := hdep m' hm'
        exact (hs.passed k l hl m' hseen).imp_right fun hk => mem_seen_take (hc.mem hseen hk)
      · exact (h.link k l a m₁ b' hold m' hm').imp_right mem_seen_take
    · exact (h.link k l a m₁ b heq m' hm').imp_right mem_seen_take

theorem Sound.arriving_take (h : f.Sound key linked) (hm : f.arriving i j = some m) (hk : ¬ f.Knows key j m) :
    (f.take linked j (some i) m).arriving i j = some m := by
  have hne := h.ne_of_taken hm hk
  unfold arriving
  rw [sent_take, if_neg fun hc => hne hc.1]
  exact hm

end

/-! ## The steps -/

variable [DecidableEq κ] [DecidableRel linked]

/-- The ways an arrival can go: nothing is on the way, a known message is dropped, or a new one is taken. -/
theorem arrive_cases (key : μ → κ) (linked : ι → ι → Prop) [DecidableRel linked] (f : Flood ι μ) (i j : ι) :
    (f.arriving i j = none ∧ f.taken key i j = none ∧ f.arrive key linked i j = f) ∨
      (∃ m, f.arriving i j = some m ∧ f.taken key i j = none ∧ f.Knows key j m ∧
        f.arrive key linked i j = f.advance i j) ∨
      ∃ m, f.arriving i j = some m ∧ f.taken key i j = some m ∧ ¬ f.Knows key j m ∧
        f.arrive key linked i j = (f.take linked j (some i) m).advance i j := by
  unfold arrive taken
  cases hm : f.arriving i j with
  | none => exact .inl ⟨rfl, rfl, rfl⟩
  | some m =>
    by_cases hk : f.Knows key j m
    · exact .inr (.inl ⟨m, rfl, by simp [hk], hk, by simp [hk]⟩)
    · exact .inr (.inr ⟨m, rfl, by simp [hk], hk, by simp [hk]⟩)

theorem seen_publish (f : Flood ι μ) (i k : ι) (m : μ) :
    (f.publish key linked i m).seen k = if k = i ∧ ¬ f.Knows key i m then f.seen k ++ [m] else f.seen k := by
  unfold Flood.publish
  by_cases hk : f.Knows key i m
  · simp [hk]
  · rw [if_neg hk, seen_take]
    simp [hk]

theorem seen_arrive (f : Flood ι μ) (i j k : ι) :
    (f.arrive key linked i j).seen k = if k = j then f.seen k ++ (f.taken key i j).toList else f.seen k := by
  rcases arrive_cases key linked f i j with ⟨-, ht, heq⟩ | ⟨m, -, ht, -, heq⟩ | ⟨m, -, ht, -, heq⟩ <;> rw [heq, ht]
  · simp
  · show f.seen k = _
    simp
  · show (f.take linked j (some i) m).seen k = _
    rw [seen_take]
    rfl

theorem mem_seen_publish {k : ι} (h : m' ∈ (f.publish key linked i m).seen k) : m' ∈ f.seen k ∨ k = i ∧ m' = m := by
  rw [seen_publish] at h
  split at h
  · rename_i hk
    exact (List.mem_append.mp h).imp_right fun h => ⟨hk.1, List.mem_singleton.mp h⟩
  · exact .inl h

theorem mem_publish_of_mem {k : ι} (h : m' ∈ f.seen k) : m' ∈ (f.publish key linked i m).seen k := by
  rw [seen_publish]
  split
  · exact List.mem_append_left _ h
  · exact h

theorem mem_seen_arrive_iff {k : ι} :
    m' ∈ (f.arrive key linked i j).seen k ↔ m' ∈ f.seen k ∨ k = j ∧ f.taken key i j = some m' := by
  rw [seen_arrive]
  split
  · rename_i hk
    simp [hk]
  · rename_i hk
    simp [hk]

theorem Sound.publish (h : f.Sound key linked) (i : ι) (m : μ) : (f.publish key linked i m).Sound key linked := by
  unfold Flood.publish
  split
  · exact h
  · rename_i hnew
    exact h.take hnew fun j hj => by cases hj

theorem Clear.publish (h : f.Clear key) (hm : ∀ j, ∀ m' ∈ f.seen j, key m' = key m → m' = m) :
    (f.publish key linked i m).Clear key := by
  unfold Flood.publish
  split
  · exact h
  · exact h.take hm

theorem Ordered.publish (h : f.Ordered dep) (hs : f.Sound key linked) (hc : f.Clear key)
    (hdep : ¬ f.Knows key i m → ∀ m', dep i m' m → m' ∈ f.seen i) : (f.publish key linked i m).Ordered dep := by
  unfold Flood.publish
  split
  · exact h
  · rename_i hnew
    exact h.take hs hc (hdep hnew)

theorem Sound.arrive (h : f.Sound key linked) (i j : ι) : (f.arrive key linked i j).Sound key linked := by
  rcases arrive_cases key linked f i j with ⟨-, -, heq⟩ | ⟨m, hm, -, hk, heq⟩ | ⟨m, hm, -, hk, heq⟩ <;> rw [heq]
  · exact h
  · exact h.advance hm hk
  · have htake : (f.take linked j (some i) m).Sound key linked := h.take hk fun l hl => by
      cases hl
      exact knows_of_mem (h.mem_of_arriving hm).2
    exact htake.advance (h.arriving_take hm hk) (knows_of_mem mem_take_self)

theorem Clear.arrive (h : f.Clear key) (hs : f.Sound key linked) (i j : ι) : (f.arrive key linked i j).Clear key := by
  rcases arrive_cases key linked f i j with ⟨-, -, heq⟩ | ⟨m, hm, -, hk, heq⟩ | ⟨m, hm, -, hk, heq⟩ <;> rw [heq]
  · exact h
  · exact h
  · have htake : (f.take linked j (some i) m).Clear key := h.take fun l m' hm' hkey =>
      h l i m' hm' m (hs.mem_of_arriving hm).2 hkey
    exact htake

theorem Ordered.arrive (h : f.Ordered dep) (hs : f.Sound key linked) (hc : f.Clear key)
    (hlinked : ∀ i j, linked i j → dep i = dep j) (i j : ι) : (f.arrive key linked i j).Ordered dep := by
  rcases arrive_cases key linked f i j with ⟨-, -, heq⟩ | ⟨m, hm, -, hk, heq⟩ | ⟨m, hm, -, hk, heq⟩ <;> rw [heq]
  · exact h
  · exact ⟨h.node, h.link⟩
  · have hsame := hlinked i j (hs.mem_of_arriving hm).1
    have htake : (f.take linked j (some i) m).Ordered dep := h.take hs hc fun m' hm' =>
      h.dep_of_arriving hs hc hm (by rw [hsame]; exact hm')
    exact ⟨htake.node, htake.link⟩

/-! ## What is left to do -/

variable [Fintype ι]

/-- Two sums that differ at one place only. -/
theorem sum_add_eq (g g' : ι → ℕ) (i : ι) (h : ∀ k, k ≠ i → g' k = g k) : ∑ k, g' k + g i = ∑ k, g k + g' i := by
  have hrest : ∑ k ∈ Finset.univ.erase i, g' k = ∑ k ∈ Finset.univ.erase i, g k :=
    Finset.sum_congr rfl fun k hk => h k (Finset.ne_of_mem_erase hk)
  rw [← Finset.add_sum_erase _ g' (Finset.mem_univ i), ← Finset.add_sum_erase _ g (Finset.mem_univ i), hrest]
  omega

/-- What is on the links. -/
def load (f : Flood ι μ) : ℕ := ∑ i, ∑ j, ((f.sent i j).length - f.got i j)

/-- What is left to do, if there are `n` messages in all.  A message that a node has not seen costs `w`, and a place on each
of its links. -/
def work (w n : ℕ) (f : Flood ι μ) : ℕ := ∑ i, (Fintype.card ι + w) * (n - (f.seen i).length) + f.load

theorem load_advance (hm : f.arriving i j = some m) : (f.advance i j).load + 1 = f.load := by
  have hlt := (List.getElem?_eq_some_iff.mp hm).1
  have hrow := sum_add_eq (fun l => (f.sent i l).length - f.got i l)
    (fun l => (f.sent i l).length - (f.advance i j).got i l) j fun l hl => by
      simp only [got_advance, hl, and_false, if_false]
  have hall := sum_add_eq (fun k => ∑ l, ((f.sent k l).length - f.got k l))
    (fun k => ∑ l, ((f.sent k l).length - (f.advance i j).got k l)) i fun k hk => by
      simp only [got_advance, hk, false_and, if_false]
  simp only [got_advance, and_self, if_true] at hrow
  change (f.advance i j).load + _ = f.load + _ at hall
  simp only [got_advance, true_and] at hall hrow
  omega

theorem load_take (linked : ι → ι → Prop) [DecidableRel linked] (f : Flood ι μ) (i : ι) (source : Option ι) (m : μ) :
    (f.take linked i source m).load ≤ f.load + Fintype.card ι := by
  have hrow : ∑ l, (((f.take linked i source m).sent i l).length - f.got i l) ≤
      ∑ l, ((f.sent i l).length - f.got i l) + Fintype.card ι := by
    rw [← Finset.card_univ, Finset.card_eq_sum_ones, ← Finset.sum_add_distrib]
    refine Finset.sum_le_sum fun l _ => ?_
    rw [sent_take]
    split
    · rw [List.length_append, List.length_singleton]
      omega
    · omega
  have hall := sum_add_eq (fun k => ∑ l, ((f.sent k l).length - f.got k l))
    (fun k => ∑ l, (((f.take linked i source m).sent k l).length - f.got k l)) i fun k hk => by
      simp only [sent_take, hk, false_and, if_false]
  change (f.take linked i source m).load + _ = f.load + _ at hall
  omega

/-- Taking a message leaves less to do. -/
theorem work_take (linked : ι → ι → Prop) [DecidableRel linked] {i : ι} {n : ℕ} (hlt : (f.seen i).length < n) (w : ℕ)
    (source : Option ι) (m : μ) : (f.take linked i source m).work w n + w ≤ f.work w n := by
  have hload := load_take linked f i source m
  have hall := sum_add_eq (fun k => (Fintype.card ι + w) * (n - (f.seen k).length))
    (fun k => (Fintype.card ι + w) * (n - ((f.take linked i source m).seen k).length)) i fun k hk => by
      simp only [seen_take, hk, if_false]
  have hnode : (Fintype.card ι + w) * (n - (f.seen i).length) =
      (Fintype.card ι + w) * (n - ((f.take linked i source m).seen i).length) + (Fintype.card ι + w) := by
    rw [seen_take, if_pos rfl, List.length_append, List.length_singleton, ← Nat.mul_succ]
    congr 1
    omega
  unfold work
  omega

theorem work_publish_le (w : ℕ) {n : ℕ} (hlt : ¬ f.Knows key i m → (f.seen i).length < n) :
    (f.publish key linked i m).work w n ≤ f.work w n := by
  unfold Flood.publish
  split
  · exact le_rfl
  · rename_i hnew
    exact (Nat.le_add_right _ w).trans (work_take linked (hlt hnew) w none m)

/-- An arrival leaves less to do, and more so if the message is taken. -/
theorem work_arrive (w : ℕ) {n : ℕ} (hm : f.arriving i j = some m) (hs : f.Sound key linked)
    (hlt : ¬ f.Knows key j m → (f.seen j).length < n) :
    (f.arrive key linked i j).work w n + (f.taken key i j).toList.length * w + 1 ≤ f.work w n := by
  rcases arrive_cases key linked f i j with ⟨hnone, -, -⟩ | ⟨m', hm', ht, -, heq⟩ | ⟨m', hm', ht, hk, heq⟩
  · rw [hnone] at hm
    cases hm
  · have hload := load_advance hm
    have hwork : (f.advance i j).work w n = ∑ k, (Fintype.card ι + w) * (n - (f.seen k).length) + (f.advance i j).load := rfl
    rw [heq, ht, hwork, work]
    simp only [Option.toList_none, List.length_nil]
    omega
  · rw [hm] at hm'
    cases hm'
    have htake := work_take linked (hlt hk) w (some i) m
    have hload := load_advance (hs.arriving_take hm hk)
    have hwork : ((f.take linked j (some i) m).advance i j).work w n =
      ∑ k, (Fintype.card ι + w) * (n - ((f.take linked j (some i) m).seen k).length) +
        ((f.take linked j (some i) m).advance i j).load := rfl
    rw [work] at htake
    rw [heq, ht, hwork]
    simp only [Option.toList_some, List.length_singleton]
    omega

end Flood

end Simb.Lib
