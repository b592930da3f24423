import MulticoinTreasury.Library.Machine

/-!
# Interleavings of independent agents

The inputs of a machine belong to agents. If the inputs of two agents can be exchanged, then a run
depends only on the sequence of inputs of each agent and not on how the sequences are interleaved:
the final states agree and every agent sees the same outputs (`run_eq_of_projections_eq`).
States are compared by an equivalence `R`, so that what no agent observes may differ.
-/

set_option autoImplicit false

universe u v w

namespace Machine

variable {σ : Type u} {ι : Type v} {ο : Type w} {κ : Type*}

/-- The inputs of the admitted kind of different agents can be exchanged in every state of the
invariant: neither changes the other's output, and the two final states are equivalent. -/
structure Independent (step : σ → ι → ο × σ) (agent : ι → κ) (Adm : ι → Prop) (Inv : σ → Prop)
    (R : σ → σ → Prop) : Prop where
  equiv : Equivalence R
  congr : ∀ {s t i}, Adm i → R s t →
    (step s i).1 = (step t i).1 ∧ R (step s i).2 (step t i).2
  inv : ∀ {s i}, Adm i → Inv s → Inv (step s i).2
  output : ∀ {s i j}, Adm i → Adm j → agent i ≠ agent j → Inv s →
    (step (step s i).2 j).1 = (step s j).1
  exchange : ∀ {s i j}, Adm i → Adm j → agent i ≠ agent j → Inv s →
    R (step (step s i).2 j).2 (step (step s j).2 i).2

/-- What the agent `k` sees of a run: its own inputs and their outputs. -/
def view [DecidableEq κ] (agent : ι → κ) (k : κ) (h : List (Entry σ ι ο)) : List (ι × ο) :=
  (h.filter fun e => agent e.input = k).map fun e => (e.input, e.output)

variable {step : σ → ι → ο × σ} {agent : ι → κ} {Adm : ι → Prop} {Inv : σ → Prop}
  {R : σ → σ → Prop}

/-- Runs from equivalent states on the same inputs end in equivalent states, and no agent sees a
difference. -/
theorem run_congr [DecidableEq κ] (hI : Independent step agent Adm Inv R) {is : List ι} :
    ∀ {s t : σ}, (∀ i ∈ is, Adm i) → R s t →
      R (run step s is) (run step t is) ∧
        ∀ k, view agent k (trace step s is) = view agent k (trace step t is) := by
  induction is with
  | nil => exact fun _ h => ⟨h, fun _ => rfl⟩
  | cons i is ih =>
    intro s t hadm h
    obtain ⟨hout, hR⟩ := hI.congr (hadm i List.mem_cons_self) h
    obtain ⟨hrun, hview⟩ := ih (fun j hj => hadm j (List.mem_cons_of_mem i hj)) hR
    refine ⟨hrun, fun k => ?_⟩
    have hk := hview k
    by_cases hik : agent i = k
    · simpa [view, entry, hik, hout] using hk
    · simpa [view, entry, hik] using hk

/-- An input can be moved in front of inputs of other agents. -/
theorem run_move_front [DecidableEq κ] (hI : Independent step agent Adm Inv R) {i : ι}
    (hi : Adm i) (post : List ι) (hpost : ∀ j ∈ post, Adm j) :
    ∀ (pre : List ι) {s : σ}, (∀ j ∈ pre, Adm j ∧ agent i ≠ agent j) → Inv s →
      R (run step s (pre ++ i :: post)) (run step s (i :: (pre ++ post))) ∧
        ∀ k, view agent k (trace step s (pre ++ i :: post)) =
          view agent k (trace step s (i :: (pre ++ post))) := by
  intro pre
  induction pre with
  | nil => exact fun _ _ => ⟨hI.equiv.refl _, fun _ => rfl⟩
  | cons j pre ih =>
    intro s hpre hs
    obtain ⟨hj, hij⟩ := hpre j List.mem_cons_self
    have hrest : ∀ l ∈ pre, Adm l ∧ agent i ≠ agent l :=
      fun l hl => hpre l (List.mem_cons_of_mem j hl)
    have htail : ∀ l ∈ pre ++ post, Adm l := by
      intro l hl
      rcases List.mem_append.1 hl with hl | hl
      · exact (hrest l hl).1
      · exact hpost l hl
    obtain ⟨hrun, hview⟩ := ih hrest (hI.inv hj hs)
    -- after the induction step the inputs start with `j, i`; these two are exchanged
    obtain ⟨hrun', hview'⟩ := run_congr hI htail (hI.exchange hj hi hij.symm hs)
    have houti := hI.output hj hi hij.symm hs
    have houtj := hI.output hi hj hij hs
    refine ⟨hI.equiv.trans hrun hrun', fun k => ?_⟩
    have hk := (hview k)
    have hk' := hview' k
    simp only [List.cons_append, trace_cons, view, List.filter_cons, entry] at hk hk' ⊢
    by_cases hik : agent i = k
    · have hjk : agent j ≠ k := fun h => hij (hik.trans h.symm)
      simp only [hik, hjk, decide_true, decide_false, if_true, if_false, Bool.false_eq_true,
        List.map_cons] at hk hk' ⊢
      rw [hk, hk', houti]
    · by_cases hjk : agent j = k
      · simp only [hik, hjk, decide_true, decide_false, if_true, if_false, Bool.false_eq_true,
          List.map_cons] at hk hk' ⊢
        rw [hk, hk', houtj]
      · simp only [hik, hjk, decide_false, if_false, Bool.false_eq_true] at hk hk' ⊢
        rw [hk, hk']

/-- **Runs depend only on the inputs of each agent.** Two interleavings of the same sequences of
inputs end in equivalent states, and every agent sees the same outputs in both. -/
theorem run_eq_of_projections_eq [DecidableEq κ] (hI : Independent step agent Adm Inv R) :
    ∀ (is js : List ι) {s : σ}, (∀ i ∈ is, Adm i) → (∀ j ∈ js, Adm j) → Inv s →
      (∀ k, is.filter (agent · = k) = js.filter (agent · = k)) →
      R (run step s is) (run step s js) ∧
        ∀ k, view agent k (trace step s is) = view agent k (trace step s js) := by
  intro is
  induction is with
  | nil =>
    intro js s _ _ _ hproj
    have hnil : js = [] := by
      cases js with
      | nil => rfl
      | cons j js =>
        have h := hproj (agent j)
        simp at h
    subst hnil
    exact ⟨hI.equiv.refl _, fun _ => rfl⟩
  | cons i is ih =>
    intro js s his hjs hs hproj
    have hi : Adm i := his i List.mem_cons_self
    -- `i` is the first input of its agent in `js`
    have hfirst : ∃ pre post, js = pre ++ i :: post ∧ ∀ j ∈ pre, agent j ≠ agent i := by
      have h := (hproj (agent i)).symm
      simp only [List.filter_cons, decide_true, if_true] at h
      obtain ⟨pre, post, rfl, hpre, -, -⟩ := List.filter_eq_cons_iff.1 h
      exact ⟨pre, post, rfl, fun j hj heq => hpre j hj (by simpa using heq)⟩
    obtain ⟨pre, post, rfl, hpre⟩ := hfirst
    have hpost : ∀ j ∈ post, Adm j := fun j hj => hjs j (by simp [hj])
    have hpre' : ∀ j ∈ pre, Adm j ∧ agent i ≠ agent j :=
      fun j hj => ⟨hjs j (by simp [hj]), (hpre j hj).symm⟩
    obtain ⟨hrun, hview⟩ := run_move_front hI hi post hpost pre hpre' hs
    have hproj' : ∀ k, is.filter (agent · = k) = (pre ++ post).filter (agent · = k) := by
      intro k
      have h := hproj k
      by_cases hk : agent i = k
      · have hnone : pre.filter (agent · = k) = [] := by
          rw [List.filter_eq_nil_iff]
          intro j hj
          simpa [← hk] using hpre j hj
        simpa [hk, hnone] using h
      · simpa [hk] using h
    have hadm : ∀ j ∈ pre ++ post, Adm j := by
      intro j hj
      rcases List.mem_append.1 hj with hj | hj
      · exact (hpre' j hj).1
      · exact hpost j hj
    obtain ⟨hrun', hview'⟩ := ih (pre ++ post)
      (fun j hj => his j (List.mem_cons_of_mem i hj)) hadm (hI.inv hi hs) hproj'
    refine ⟨hI.equiv.trans hrun' (hI.equiv.symm hrun), fun k => ?_⟩
    rw [hview k]
    have hk := hview' k
    by_cases hik : agent i = k
    · simpa [view, entry, hik] using hk
    · simpa [view, entry, hik] using hk

end Machine
