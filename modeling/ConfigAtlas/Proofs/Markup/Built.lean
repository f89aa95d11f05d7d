import ConfigAtlas.Survey
import ConfigAtlas.Proofs.Atlas.Records

/-!
# What is built and recorded

What holds of all opening tags of a source holds of all elements that are placed, and what is on
record of the source are its placements, whatever tags are stray.
-/

namespace ConfigAtlas.Markup

variable {good : OpenTag → Prop}

/-- The element and all in it come from good tags, and a text is cut from what follows its tag. -/
inductive Element.BuiltFrom (good : OpenTag → Prop) : Element → Prop where
  | mk {tag : OpenTag} {text? : Option Piece} {children : List Element} (htag : good tag)
      (htext : ∀ text ∈ text?, ∃ n, text = (tag.after.take n).trim)
      (hchildren : ∀ e ∈ children, e.BuiltFrom good) :
      Element.BuiltFrom good ⟨tag, text?, children⟩

theorem Element.BuiltFrom.tag {e : Element} (h : e.BuiltFrom good) : good e.tag := by
  cases h with
  | mk htag htext hchildren => exact htag

theorem Element.BuiltFrom.children {e : Element} (h : e.BuiltFrom good) :
    ∀ child ∈ e.children, child.BuiltFrom good := by
  cases h with
  | mk htag htext hchildren => exact hchildren

theorem Element.BuiltFrom.text {e : Element} (h : e.BuiltFrom good) :
    ∀ text ∈ e.text?, ∃ n, text = (e.tag.after.take n).trim := by
  cases h with
  | mk htag htext hchildren => exact htext

/-! ## Building -/

structure Unclosed.BuiltFrom (good : OpenTag → Prop) (u : Unclosed) : Prop where
  tag : good u.tag
  children : ∀ e ∈ u.children, e.BuiltFrom good

namespace Builder

structure BuiltFrom (good : OpenTag → Prop) (b : Builder) : Prop where
  roots : ∀ e ∈ b.roots, e.BuiltFrom good
  unclosed : ∀ u ∈ b.unclosed, u.BuiltFrom good

namespace BuiltFrom

variable {b : Builder}

theorem attach (h : b.BuiltFrom good) {e : Element} (he : e.BuiltFrom good) :
    (b.attach e).BuiltFrom good := by
  unfold Builder.attach
  split
  · rename_i hnone
    refine ⟨?_, h.unclosed⟩
    intro r hr
    rcases List.mem_cons.mp hr with rfl | hr
    · exact he
    · exact h.roots r hr
  · rename_i parent outer houter
    have hparent := h.unclosed parent (by simp [houter])
    refine ⟨h.roots, ?_⟩
    intro u hu
    rcases List.mem_cons.mp hu with rfl | hu
    · refine ⟨hparent.tag, ?_⟩
      intro child hchild
      rcases List.mem_cons.mp hchild with rfl | hchild
      · exact he
      · exact hparent.children child hchild
    · exact h.unclosed u (by simp [houter, hu])

theorem openTag (h : b.BuiltFrom good) {tag : OpenTag} (htag : good tag) :
    (b.openTag tag).BuiltFrom good := by
  unfold Builder.openTag
  split
  · exact h.attach (.mk htag (by simp) (by simp))
  · refine ⟨h.roots, ?_⟩
    intro u hu
    rcases List.mem_cons.mp hu with rfl | hu
    · exact ⟨htag, by simp⟩
    · exact h.unclosed u hu

theorem close (h : b.BuiltFrom good) {text : Unclosed → Option Piece}
    (htext : ∀ u, ∀ p ∈ text u, ∃ n, p = (u.tag.after.take n).trim) :
    (b.close text).BuiltFrom good := by
  unfold Builder.close
  split
  · exact h
  · rename_i u outer houter
    have hu := h.unclosed u (by simp [houter])
    have hrest : BuiltFrom good { b with unclosed := outer } :=
      ⟨h.roots, fun v hv => h.unclosed v (by simp [houter, hv])⟩
    apply hrest.attach (.mk hu.tag (htext u) _)
    intro child hchild
    exact hu.children child (List.mem_reverse.mp hchild)

theorem abandon (h : b.BuiltFrom good) (n : Nat) : (b.abandon n).BuiltFrom good := by
  induction n generalizing b with
  | zero => exact h
  | succ n ih => exact ih (h.close (by simp))

theorem closeTag (h : b.BuiltFrom good) (name : List Char) (start : Nat) :
    (b.closeTag name start).BuiltFrom good := by
  apply (h.abandon _).close
  intro u p hp
  unfold inlineText? at hp
  simp only at hp
  split at hp
  · cases hp
    exact ⟨_, rfl⟩
  · cases hp

theorem run (h : b.BuiltFrom good) {ts : List Tag} (hts : ∀ tag, .opening tag ∈ ts → good tag) :
    (b.run ts).BuiltFrom good := by
  induction ts generalizing b with
  | nil => exact h
  | cons t rest ih =>
    refine ih ?_ fun tag htag => hts tag (List.mem_cons_of_mem _ htag)
    cases t with
    | opening tag => exact h.openTag (hts tag List.mem_cons_self)
    | closing name start => exact h.closeTag name start

theorem forest (h : b.BuiltFrom good) : ∀ e ∈ b.forest, e.BuiltFrom good := by
  intro e he
  exact (h.abandon _).roots e (List.mem_reverse.mp he)

end BuiltFrom

end Builder

/-! ## Placing -/

theorem builtFrom_ofRoots {roots : List Element} (h : ∀ e ∈ roots, e.BuiltFrom good) :
    ∀ e ∈ (Document.ofRoots roots).children, e.BuiltFrom good := by
  have htops : ∀ e ∈ roots.filter (!·.isNull), e.BuiltFrom good :=
    fun e he => h e (List.mem_filter.mp he).1
  unfold Document.ofRoots
  simp only
  split
  · rename_i root hroot
    split
    · exact htops
    · rw [hroot] at htops
      exact (htops root (by simp)).children
  · exact htops

theorem placeAll_nil (paths : List (Option Path)) : placeAll paths [] = [] := by
  cases paths with
  | nil => rfl
  | cons path? paths => cases path? <;> rfl

mutual

theorem builtFrom_placements (e : Element) (h : e.BuiltFrom good) (path : Path) :
    ∀ p ∈ e.placements path, p.element.BuiltFrom good := by
  cases e with
  | mk tag text? children =>
    intro p hp
    rw [Element.placements] at hp
    rcases List.mem_cons.mp hp with rfl | hp
    · exact h
    · exact builtFrom_placeAll children h.children _ p hp

theorem builtFrom_placeAll (es : List Element) (h : ∀ e ∈ es, e.BuiltFrom good)
    (paths : List (Option Path)) : ∀ p ∈ placeAll paths es, p.element.BuiltFrom good := by
  cases es with
  | nil =>
    intro p hp
    rw [placeAll_nil] at hp
    cases hp
  | cons e rest =>
    have hrest := builtFrom_placeAll rest fun e he => h e (List.mem_cons_of_mem _ he)
    intro p hp
    cases paths with
    | nil => cases hp
    | cons path? paths =>
      cases path? with
      | none => exact hrest paths p hp
      | some path =>
        rcases List.mem_append.mp hp with hp | hp
        · exact builtFrom_placements e (h e List.mem_cons_self) path p hp
        · exact hrest paths p hp

end

section

variable {content : List Char} (h : ∀ tag, .opening tag ∈ tags (.whole content) → good tag)

include h

theorem builtFrom_children : ∀ e ∈ (Document.ofContent content).children, e.BuiltFrom good := by
  have hempty : Builder.BuiltFrom good {} := ⟨by simp, by simp⟩
  exact builtFrom_ofRoots (hempty.run h).forest

theorem builtFrom_ofContent :
    ∀ p ∈ (Document.ofContent content).placements, p.element.BuiltFrom good :=
  builtFrom_placeAll _ (builtFrom_children h) _

end

/-! ## On record -/

theorem filterMap_record?_strays (b : Builder) (ts : List Tag) :
    (b.strays ts).filterMap Finding.record? = [] := by
  induction ts generalizing b with
  | nil => rfl
  | cons tag rest ih =>
    have hstray : (b.stray? tag).toList.filterMap Finding.record? = [] := by
      cases tag with
      | opening tag => rfl
      | closing name start =>
        rw [Builder.stray?]
        split <;> rfl
    rw [Builder.strays, List.filterMap_append, hstray, ih, List.nil_append]

/-- What the placements of a source put on record, in their order. -/
def recordsOf (content : List Char) : List Record :=
  (Document.ofContent content).placements.flatMap (·.records (LineTable.ofContent content))

theorem filterMap_record?_findings (content : List Char) :
    (findings content).filterMap Finding.record? = recordsOf content := by
  have hfindings : findings content =
      Builder.strays {} (tags (.whole content)) ++ (recordsOf content).map .placed := rfl
  rw [hfindings, List.filterMap_append, filterMap_record?_strays,
    Finding.filterMap_record?_placed, List.nil_append]

theorem atlas_build_markup (content : String) :
    (Survey.build .markup content).atlas = .ofRecords (recordsOf content.toList) := by
  rw [Survey.atlas_build, Atlas.ofFindings, Survey.findings, filterMap_record?_findings]

end ConfigAtlas.Markup
