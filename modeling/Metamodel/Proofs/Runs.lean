import Metamodel.Project
import Metamodel.Proofs.Supply

set_option autoImplicit false

/-! # Runs

A run starts at a prior notebook, supplies definitions one after the other, and may freeze the
workbench at any time to go on from the notebook that gives. Compiling is a run that is frozen at
its end (`exists_run_of_compile`), and compiling one project on the result of another is a run as
well.

An invariant of notebooks that every supply keeps on previews holds for what a run gives
(`Run.preview_induction`), since freezing publishes the preview. Whatever a run reads on its way
grows into its result (`Run.exists_supplied`). -/

namespace Metamodel

/-- On the prior notebook `p` the definitions `ds` have been supplied, in this order, and have led to
the workbench. -/
inductive Run (p : Notebook) : List Definition → Workbench → Prop
  | start : Run p [] (.start p)
  | supply {ds : List Definition} {b b' : Workbench} {d : Definition} (h : Run p ds b)
    (hs : b.supply d = .ok b') : Run p (ds ++ [d]) b'
  | freeze {ds : List Definition} {b : Workbench} {n : Notebook} (h : Run p ds b)
    (hf : b.freeze = .ok n) : Run p ds (.start n)

theorem Workbench.buildable_start (n : Notebook) : (start n).Buildable := by
  intro name x hx
  cases hx

/-- Freezing does not change the preview. -/
theorem Workbench.preview_start_of_freeze {b : Workbench} {n : Notebook} (h : b.freeze = .ok n) :
    (start n).preview = b.preview := by
  rw [preview_start, (eq_preview_of_freeze h).1]

namespace Run

variable {p : Notebook} {ds : List Definition} {b : Workbench}

theorem buildable (h : Run p ds b) : b.Buildable := by
  induction h with
  | start => exact Workbench.buildable_start p
  | supply _ hs ih => exact (Workbench.supplied_of_supply hs).buildable ih
  | freeze => exact Workbench.buildable_start _

/-- What every supply keeps on previews holds at the end of a run if it holds at its start. -/
theorem preview_induction {inv : Notebook → Prop} (hp : inv p)
    (step : ∀ (b b' : Workbench) (d : Definition), b.Buildable → b.Supplied d b' →
      inv b.preview → inv b'.preview) (h : Run p ds b) : inv b.preview := by
  induction h with
  | start =>
    rw [Workbench.preview_start]
    exact hp
  | supply h hs ih => exact step _ _ _ h.buildable (Workbench.supplied_of_supply hs) ih
  | freeze _ hf ih =>
    rw [Workbench.preview_start_of_freeze hf]
    exact ih

/-- The sketches of the prior notebook stay as they are. -/
theorem get?_prior (h : Run p ds b) {name : String} {s : Sketch} (hs : p.get? name = some s) :
    b.prior.get? name = some s := by
  induction h with
  | start => exact hs
  | supply _ h ih => rw [(Workbench.supplied_of_supply h).prior, ih]
  | freeze _ hf ih =>
    rw [(Workbench.eq_preview_of_freeze hf).1]
    exact Workbench.get?_preview_of_prior ih

theorem grows_prior (h : Run p ds b) : p.Grows b.preview :=
  fun _ s hs => ⟨s, Workbench.get?_preview_of_prior (h.get?_prior hs), .same s⟩

/-- The definitions that become sketches: all but data types. -/
def sketched (ds : List Definition) : List Definition :=
  ds.filter fun d => d.kind? ≠ some .dataType

theorem mem_sketched {d : Definition} : d ∈ sketched ds ↔ d ∈ ds ∧ d.kind? ≠ some .dataType := by
  simp [sketched]

theorem sketched_eq_self {ds : List Definition} (h : ∀ d ∈ ds, d.kind? ≠ some .dataType) :
    sketched ds = ds :=
  List.filter_eq_self.2 fun d hd => decide_eq_true (h d hd)

/-- The names are those of the prior notebook, then the keys of what was supplied. -/
theorem names (h : Run p ds b) :
    b.preview.names = p.names ++ Definition.keys (sketched ds) := by
  induction h with
  | start => simp [sketched, Named.names]
  | @supply ds b b' d _ hs ih =>
    rw [(Workbench.supplied_of_supply hs).names, ih, List.append_assoc]
    by_cases hk : d.kind? = some .dataType <;> simp [sketched, Named.names, Named.nameOf, hk]
  | freeze _ hf ih => rw [Workbench.preview_start_of_freeze hf, ih]

/-- What becomes a sketch has a key of its own. -/
theorem nodup_keys_sketched (h : Run p ds b) : (Definition.keys (sketched ds)).Nodup := by
  have hn : b.preview.names.Nodup := b.preview.distinct
  rw [h.names] at hn
  exact (List.nodup_append.1 hn).2.1

/-- Each definition of a run was supplied on the way, and all there was then has only grown. -/
theorem exists_supplied (h : Run p ds b) {d : Definition} (hd : d ∈ ds) :
    ∃ c c' : Workbench, c.Buildable ∧ c.Supplied d c' ∧ c.preview.Grows b.preview ∧
      c'.preview.Grows b.preview := by
  induction h with
  | start => cases hd
  | supply h hs ih =>
    have hsup := Workbench.supplied_of_supply hs
    have hgrow := hsup.grows h.buildable
    -- Either an earlier step supplied it, or this one did.
    rcases List.mem_append.1 hd with hd | hd
    · obtain ⟨c, c', hb, hc, hg, hg'⟩ := ih hd
      exact ⟨c, c', hb, hc, hg.trans hgrow, hg'.trans hgrow⟩
    · obtain rfl := List.mem_singleton.1 hd
      exact ⟨_, _, h.buildable, hsup, hgrow, .refl _⟩
  | freeze _ hf ih =>
    rw [Workbench.preview_start_of_freeze hf]
    exact ih hd

/-- A run goes on with whatever is supplied next. -/
theorem foldlM_supply (h : Run p ds b) {es : List Definition} {b' : Workbench}
    (hs : es.foldlM Workbench.supply b = .ok b') : Run p (ds ++ es) b' := by
  induction es generalizing ds b with
  | nil =>
    cases hs
    rwa [List.append_nil]
  | cons e es ih =>
    rw [List.foldlM_cons, bind_eq_ok] at hs
    obtain ⟨c, hc, hs⟩ := hs
    have := ih (h.supply hc) hs
    rwa [List.append_assoc] at this

/-- A run goes on with a run that starts from what it has been frozen to. -/
theorem trans {n : Notebook} (h : Run p ds (.start n)) {es : List Definition} {b' : Workbench}
    (h' : Run n es b') : Run p (ds ++ es) b' := by
  induction h' with
  | start => rwa [List.append_nil]
  | supply _ hs ih =>
    rw [← List.append_assoc]
    exact ih.supply hs
  | freeze _ hf ih => exact ih.freeze hf

end Run

namespace Project

theorem compile_eq_ok {p : Project} {prior n : Notebook} :
    p.compile prior = .ok n ↔ ∃ ds b, p.repository.solve prior = .ok ds ∧
      ds.foldlM Workbench.supply (.start prior) = .ok b ∧ b.freeze = .ok n := by
  simp only [compile, bind_eq_ok]
  constructor
  · rintro ⟨ds, hds, b, hb, hn⟩
    exact ⟨ds, b, hds, hb, hn⟩
  · rintro ⟨ds, b, hds, hb, hn⟩
    exact ⟨ds, hds, b, hb, hn⟩

/-- Compiling runs through the solved definitions and freezes at the end. -/
theorem exists_run_of_compile {p : Project} {prior n : Notebook} (h : p.compile prior = .ok n) :
    ∃ ds b, p.repository.solve prior = .ok ds ∧ Run prior ds b ∧ b.freeze = .ok n := by
  obtain ⟨ds, b, hds, hb, hf⟩ := compile_eq_ok.1 h
  exact ⟨ds, b, hds, Run.start.foldlM_supply hb, hf⟩

end Project

end Metamodel
