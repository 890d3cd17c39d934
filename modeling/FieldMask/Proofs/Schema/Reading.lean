import FieldMask.Proofs.Schema.Meaning

/-!
# What is read off a schema

Reading a legible schema of a grounded document succeeds, whatever references were met before and
however many may still be replaced. The rules that it gives cover the schema (`read_covers`): each
of them stands for a keyword that the schema has, or looks up a known reference that leads on from
it, and every keyword of the schema is found by one of them.
-/

namespace FieldMask

/-! ## Readers -/

namespace RuleReader

variable {α β : Type} {x : RuleReader α} {f : α → RuleReader β} {met met' : List String} {a : α}

theorem run_pure : (pure a : RuleReader α).run met = .ok (a, met) := rfl

theorem run_bind (h : x.run met = .ok (a, met')) : (x >>= f).run met = (f a).run met' := by
  rw [StateT.run_bind, h, bind_ok]

theorem run_get : (get : RuleReader (List String)).run met = .ok (met, met) := rfl

theorem run_resolve {document target : Json} {text : String}
    (h : Reference.resolve document text = .ok target) :
    (resolve document text).run met = .ok (target, met) := by
  rw [resolve, h]
  rfl

end RuleReader

/-- The rules can be read off the schema, after some references and up to some depth. -/
def Schema.Reads (document : Json) (s : Schema) (rules : List Rule) : Prop :=
  ∃ depth met met', (s.read document depth).run met = .ok (rules, met')

/-- The rule stands for the keyword, with rules for the schemas in it. -/
inductive Keyword.Gives (document : Json) : Keyword → Rule → Prop
  | type (wanted : SchemaType) : Keyword.Gives document (.type wanted) (.type wanted)
  | types (wanted : List SchemaType) : Keyword.Gives document (.types wanted) (.types wanted)
  | choices (values : List Json) : Keyword.Gives document (.choices values) (.choices values)
  | properties {members : List (String × Schema)} {known : List (String × List Rule)}
      (h : Keyed.Related (fun _ s rules => s.Reads document rules) members known) :
      Keyword.Gives document (.properties members) (.properties known)
  | closed {members : List (String × Schema)} {known : List (String × List Rule)}
      (h : Keyed.Related (fun _ s rules => s.Reads document rules) members known) :
      Keyword.Gives document (.closed members) (.closed known)
  | additional {members : List (String × Schema)} {others : Schema}
      {known : List (String × List Rule)} {rules : List Rule}
      (h : Keyed.Related (fun _ s rules => s.Reads document rules) members known)
      (ho : others.Reads document rules) :
      Keyword.Gives document (.additional members others) (.additional known rules)
  | memberless : Keyword.Gives document .memberless .memberless
  | required (names : List String) : Keyword.Gives document (.required names) (.required names)
  | items {s : Schema} {rules : List Rule} (h : s.Reads document rules) :
      Keyword.Gives document (.items s) (.items rules)
  | itemList {schemas : List Schema} {rules : List (List Rule)}
      (h : List.Forall₂ (Schema.Reads document) schemas rules) :
      Keyword.Gives document (.itemList schemas) (.itemList rules)
  | leastItems (count : Nat) : Keyword.Gives document (.leastItems count) (.leastItems count)
  | mostItems (count : Nat) : Keyword.Gives document (.mostItems count) (.mostItems count)
  | uniqueItems : Keyword.Gives document .uniqueItems .uniqueItems

namespace Schema

variable {document : Json} {known : String → Prop} {rank : String → Nat} {bound : Nat}

/-- The rule looks a known reference of a low rank up, whose target has keywords of the schema. -/
def LooksUp (document : Json) (known : String → Prop) (rank : String → Nat) (bound : Nat)
    (s : Schema) (rule : Rule) : Prop :=
  ∃ text target, rule = .follow text ∧ known text ∧ rank text < bound ∧
    Reference.resolve document text = .ok target ∧
    ∀ k, (ofJson target).Has document k → s.Has document k

/-- Among the rules one stands for the keyword, or looks up a reference to a schema that has it. -/
def Finds (document : Json) (rules : List Rule) (k : Keyword) : Prop :=
  (∃ rule ∈ rules, k.Gives document rule) ∨
    ∃ text target, .follow text ∈ rules ∧ Reference.resolve document text = .ok target ∧
      (ofJson target).Has document k

/-- The rules are about keywords of the schema, and about every one of them. -/
structure Covers (document : Json) (known : String → Prop) (rank : String → Nat) (bound : Nat)
    (s : Schema) (rules : List Rule) : Prop where
  stands : ∀ rule ∈ rules, (∃ k, s.Has document k ∧ k.Gives document rule) ∨
    LooksUp document known rank bound s rule
  finds : ∀ k, s.Has document k → Finds document rules k

/-- A schema that has no keyword but those that another has. -/
theorem LooksUp.mono {s t : Schema} {rule : Rule} (h : LooksUp document known rank bound s rule)
    (hk : ∀ k, s.Has document k → t.Has document k) {bound' : Nat} (hb : bound ≤ bound') :
    LooksUp document known rank bound' t rule := by
  obtain ⟨text, target, hrule, hknown, hrank, ht, hs⟩ := h
  exact ⟨text, target, hrule, hknown, Nat.lt_of_lt_of_le hrank hb, ht, fun k h => hk k (hs k h)⟩

theorem Finds.mono {rules rules' : List Rule} {k : Keyword} (h : Finds document rules k)
    (hr : rules ⊆ rules') : Finds document rules' k := by
  rcases h with ⟨rule, hmem, hgives⟩ | ⟨text, target, hmem, ht, hk⟩
  · exact .inl ⟨rule, hr hmem, hgives⟩
  · exact .inr ⟨text, target, hr hmem, ht, hk⟩

theorem Covers.congr {s t : Schema} {rules : List Rule}
    (h : Covers document known rank bound s rules)
    (hk : ∀ k, s.Has document k ↔ t.Has document k) {bound' : Nat} (hb : bound ≤ bound') :
    Covers document known rank bound' t rules where
  stands rule hrule := by
    rcases h.stands rule hrule with ⟨k, hs, hgives⟩ | hlooks
    · exact .inl ⟨k, (hk k).1 hs, hgives⟩
    · exact .inr (hlooks.mono (fun k => (hk k).1) hb)
  finds k ht := h.finds k ((hk k).2 ht)

/-! ## One keyword after the other -/

theorem covers_nil : Covers document known rank bound (.keywords []) [] where
  stands := nofun
  finds k h := by
    cases h with
    | own hk _ => cases hk
    | allOf hl _ _ => cases hl
    | reference hl _ _ => cases hl

theorem Covers.append {k : Keyword} {rest : List Keyword} {rules more : List Rule}
    (h : Covers document known rank bound (.keywords [k]) rules)
    (hrest : Covers document known rank bound (.keywords rest) more) :
    Covers document known rank bound (.keywords (k :: rest)) (rules ++ more) where
  stands rule hrule := by
    rcases List.mem_append.1 hrule with hrule | hrule
    · rcases h.stands rule hrule with ⟨k', hk', hgives⟩ | hlooks
      · exact .inl ⟨k', has_cons_iff.2 (.inl hk'), hgives⟩
      · exact .inr (hlooks.mono (fun _ h => has_cons_iff.2 (.inl h)) (Nat.le_refl _))
    · rcases hrest.stands rule hrule with ⟨k', hk', hgives⟩ | hlooks
      · exact .inl ⟨k', has_cons_iff.2 (.inr hk'), hgives⟩
      · exact .inr (hlooks.mono (fun _ h => has_cons_iff.2 (.inr h)) (Nat.le_refl _))
  finds k' hk' := by
    rcases has_cons_iff.1 hk' with hk' | hk'
    · exact (h.finds k' hk').mono (List.subset_append_left _ _)
    · exact (hrest.finds k' hk').mono (List.subset_append_right _ _)

/-- A keyword that leads to no other schema is covered by the rule that stands for it. -/
theorem covers_singleton {k : Keyword} {rule : Rule} (hl : k.leadsOn = false)
    (hgives : k.Gives document rule) :
    Covers document known rank bound (.keywords [k]) [rule] where
  stands rule' hrule := by
    obtain rfl := List.mem_singleton.1 hrule
    exact .inl ⟨k, .own List.mem_cons_self hl, hgives⟩
  finds k' hk' := by
    cases hk' with
    | own hk _ =>
      obtain rfl := List.mem_singleton.1 hk
      exact .inl ⟨rule, List.mem_cons_self, hgives⟩
    | allOf hl' _ _ =>
      obtain rfl := List.mem_singleton.1 hl'
      cases hl
    | reference hl' _ _ =>
      obtain rfl := List.mem_singleton.1 hl'
      cases hl

/-- The rules of several schemas cover their composition. -/
theorem covers_flatten {schemas : List Schema} {rules : List (List Rule)}
    (h : List.Forall₂ (Covers document known rank bound) schemas rules) :
    Covers document known rank bound (.keywords [.allOf schemas]) rules.flatten where
  stands rule hrule := by
    obtain ⟨each, heach, hrule⟩ := List.mem_flatten.1 hrule
    obtain ⟨s, hs, hcovers⟩ := exists_left_of_mem h heach
    have hk {k : Keyword} (hk : s.Has document k) : Has document (.keywords [.allOf schemas]) k :=
      has_allOf_iff.2 ⟨s, hs, hk⟩
    rcases hcovers.stands rule hrule with ⟨k, hsk, hgives⟩ | hlooks
    · exact .inl ⟨k, hk hsk, hgives⟩
    · exact .inr (hlooks.mono (fun _ => hk) (Nat.le_refl _))
  finds k hk := by
    obtain ⟨s, hs, hk⟩ := has_allOf_iff.1 hk
    obtain ⟨each, heach, hcovers⟩ := exists_right_of_mem h hs
    exact (hcovers.finds k hk).mono fun rule hrule => List.mem_flatten.2 ⟨each, heach, hrule⟩

/-- A rule that looks a reference up covers it. -/
theorem covers_follow {text : String} {target : Json} (hk : known text) (hr : rank text < bound)
    (ht : Reference.resolve document text = .ok target) :
    Covers document known rank bound (.keywords [.reference text]) [.follow text] where
  stands rule hrule := by
    obtain rfl := List.mem_singleton.1 hrule
    exact .inr ⟨text, target, rfl, hk, hr, ht, fun k => (has_reference_iff ht).2⟩
  finds k hk :=
    .inr ⟨text, target, List.mem_cons_self, ht, (has_reference_iff ht).1 hk⟩

/-! ## Reading a schema -/

mutual

/-- **Reading a legible schema gives rules that cover it**, wherever reading has come to. -/
theorem read_covers (hg : Grounded document known rank) {s : Schema} (hs : s.Legible known)
    {bound : Nat} (hb : ∀ text, s.Refers text → rank text < bound) (depth : Nat)
    (met : List String) :
    ∃ rules met', (s.read document depth).run met = .ok (rules, met') ∧
      Covers document known rank bound s rules := by
  match s with
  | .always accepts =>
    cases hs
    rw [read]
    exact ⟨[], met, rfl, nofun, fun k hk => by cases hk⟩
  | .keywords list =>
    rw [read]
    exact readKeywords_covers hg hs.keyword hb depth met
termination_by (depth, sizeOf s)

theorem readKeywords_covers (hg : Grounded document known rank) {list : List Keyword}
    (hs : ∀ k ∈ list, k.Legible known) {bound : Nat}
    (hb : ∀ text, Refers (.keywords list) text → rank text < bound) (depth : Nat)
    (met : List String) :
    ∃ rules met', (readKeywords document depth list).run met = .ok (rules, met') ∧
      Covers document known rank bound (.keywords list) rules := by
  match list with
  | [] =>
    rw [readKeywords]
    exact ⟨[], met, rfl, covers_nil⟩
  | k :: rest =>
    rw [readKeywords]
    obtain ⟨hk, hrest⟩ := List.forall_mem_cons.1 hs
    have hbk : ∀ text, Refers (.keywords [k]) text → rank text < bound := fun text h =>
      hb text (h.mono (List.cons_subset.2 ⟨List.mem_cons_self, List.nil_subset _⟩))
    have hbrest : ∀ text, Refers (.keywords rest) text → rank text < bound := fun text h =>
      hb text (h.mono (List.subset_cons_self _ _))
    obtain ⟨rules, met₁, hrun, hcovers⟩ := readKeyword_covers hg hk hbk depth met
    obtain ⟨more, met₂, hmore, hcovers'⟩ := readKeywords_covers hg hrest hbrest depth met₁
    refine ⟨rules ++ more, met₂, ?_, hcovers.append hcovers'⟩
    rw [RuleReader.run_bind hrun, RuleReader.run_bind hmore, RuleReader.run_pure]
termination_by (depth, sizeOf list)

theorem readKeyword_covers (hg : Grounded document known rank) {k : Keyword}
    (hk : k.Legible known) {bound : Nat}
    (hb : ∀ text, Refers (.keywords [k]) text → rank text < bound) (depth : Nat)
    (met : List String) :
    ∃ rules met', (readKeyword document depth k).run met = .ok (rules, met') ∧
      Covers document known rank bound (.keywords [k]) rules := by
  match k with
  | .type wanted =>
    rw [readKeyword]
    exact ⟨_, met, rfl, covers_singleton rfl (.type wanted)⟩
  | .types wanted =>
    rw [readKeyword]
    exact ⟨_, met, rfl, covers_singleton rfl (.types wanted)⟩
  | .choices values =>
    rw [readKeyword]
    exact ⟨_, met, rfl, covers_singleton rfl (.choices values)⟩
  | .properties members =>
    cases hk with
    | properties h =>
      obtain ⟨listed, met', hrun, hrel⟩ := readProperties_reads hg h depth met
      rw [readKeyword, RuleReader.run_bind hrun, RuleReader.run_pure]
      exact ⟨_, met', rfl, covers_singleton rfl (.properties hrel)⟩
  | .closed members =>
    cases hk with
    | closed h =>
      obtain ⟨listed, met', hrun, hrel⟩ := readProperties_reads hg h depth met
      rw [readKeyword, RuleReader.run_bind hrun, RuleReader.run_pure]
      exact ⟨_, met', rfl, covers_singleton rfl (.closed hrel)⟩
  | .additional members others =>
    cases hk with
    | additional h ho =>
      obtain ⟨listed, met₁, hrun, hrel⟩ := readProperties_reads hg h depth met
      obtain ⟨rules, met₂, hrun', -⟩ := read_covers hg ho (hg.rank_lt ho) depth met₁
      rw [readKeyword, RuleReader.run_bind hrun, RuleReader.run_bind hrun', RuleReader.run_pure]
      exact ⟨_, met₂, rfl, covers_singleton rfl (.additional hrel ⟨_, _, _, hrun'⟩)⟩
  | .memberless =>
    rw [readKeyword]
    exact ⟨_, met, rfl, covers_singleton rfl .memberless⟩
  | .required names =>
    rw [readKeyword]
    exact ⟨_, met, rfl, covers_singleton rfl (.required names)⟩
  | .items s =>
    cases hk with
    | items h =>
      obtain ⟨rules, met', hrun, -⟩ := read_covers hg h (hg.rank_lt h) depth met
      rw [readKeyword, RuleReader.run_bind hrun, RuleReader.run_pure]
      exact ⟨_, met', rfl, covers_singleton rfl (.items ⟨_, _, _, hrun⟩)⟩
  | .itemList schemas =>
    cases hk with
    | itemList h =>
      obtain ⟨rules, met', hrun, hrel⟩ :=
        readEach_covers hg h (fun s hs => hg.rank_lt (h s hs)) depth met
      rw [readKeyword, RuleReader.run_bind hrun, RuleReader.run_pure]
      exact ⟨_, met', rfl, covers_singleton rfl (.itemList (hrel.imp fun _ _ h => h.1))⟩
  | .leastItems count =>
    rw [readKeyword]
    exact ⟨_, met, rfl, covers_singleton rfl (.leastItems count)⟩
  | .mostItems count =>
    rw [readKeyword]
    exact ⟨_, met, rfl, covers_singleton rfl (.mostItems count)⟩
  | .uniqueItems =>
    rw [readKeyword]
    exact ⟨_, met, rfl, covers_singleton rfl .uniqueItems⟩
  | .allOf schemas =>
    cases hk with
    | allOf h =>
      obtain ⟨rules, met', hrun, hrel⟩ := readEach_covers hg h
        (fun s hs text hr => hb text (.allOf List.mem_cons_self hs hr)) depth met
      rw [readKeyword, RuleReader.run_bind hrun, RuleReader.run_pure]
      exact ⟨_, met', rfl, covers_flatten (hrel.imp fun _ _ h => h.2)⟩
  | .malformed violation => nomatch hk
  | .reference text =>
    cases hk with
    | reference hk =>
      obtain ⟨target, ht, hown, hlegible, hrank⟩ := hg.leads hk
      have hlow : rank text < bound := hb text (.own List.mem_cons_self)
      have hfollow : Covers document known rank bound (.keywords [.reference text])
          (if target.ownReference? = some text then [] else [.follow text]) := by
        rw [if_neg hown]
        exact covers_follow hk hlow ht
      rw [readKeyword, RuleReader.run_bind (RuleReader.run_resolve ht),
        RuleReader.run_bind RuleReader.run_get]
      by_cases hmet : met.contains (Reference.form text) = true
      · rw [if_pos hmet, RuleReader.run_pure]
        exact ⟨_, met, rfl, hfollow⟩
      · rw [if_neg hmet]
        match depth with
        | 0 => exact ⟨_, met, rfl, covers_follow hk hlow ht⟩
        | depth + 1 =>
          obtain ⟨rules, met', hrun, hcovers⟩ :=
            read_covers hg hlegible hrank depth (Reference.form text :: met)
          refine ⟨rules, met', hrun, hcovers.congr (fun k => (has_reference_iff ht).symm) ?_⟩
          exact Nat.le_of_lt hlow
termination_by (depth, sizeOf k)

theorem readProperties_reads (hg : Grounded document known rank) {members : List (String × Schema)}
    (hs : ∀ e ∈ members, e.2.Legible known) (depth : Nat) (met : List String) :
    ∃ listed met', (readProperties document depth members).run met = .ok (listed, met') ∧
      Keyed.Related (fun _ s rules => s.Reads document rules) members listed := by
  match members with
  | [] =>
    rw [readProperties]
    exact ⟨[], met, rfl, .nil⟩
  | (name, s) :: rest =>
    obtain ⟨h, hrest⟩ := List.forall_mem_cons.1 hs
    obtain ⟨rules, met₁, hrun, -⟩ := read_covers hg h (hg.rank_lt h) depth met
    obtain ⟨listed, met₂, hmore, hrel⟩ := readProperties_reads hg hrest depth met₁
    rw [readProperties, RuleReader.run_bind hrun, RuleReader.run_bind hmore, RuleReader.run_pure]
    exact ⟨_, met₂, rfl, .cons ⟨rfl, _, _, _, hrun⟩ hrel⟩
termination_by (depth, sizeOf members)

theorem readEach_covers (hg : Grounded document known rank) {schemas : List Schema}
    (hs : ∀ s ∈ schemas, s.Legible known) {bound : Nat}
    (hb : ∀ s ∈ schemas, ∀ text, s.Refers text → rank text < bound) (depth : Nat)
    (met : List String) :
    ∃ rules met', (readEach document depth schemas).run met = .ok (rules, met') ∧
      List.Forall₂ (fun s rules => s.Reads document rules ∧
        Covers document known rank bound s rules) schemas rules := by
  match schemas with
  | [] =>
    rw [readEach]
    exact ⟨[], met, rfl, .nil⟩
  | s :: rest =>
    obtain ⟨h, hrest⟩ := List.forall_mem_cons.1 hs
    obtain ⟨hbs, hbrest⟩ := List.forall_mem_cons.1 hb
    obtain ⟨rules, met₁, hrun, hcovers⟩ := read_covers hg h hbs depth met
    obtain ⟨more, met₂, hmore, hrel⟩ := readEach_covers hg hrest hbrest depth met₁
    rw [readEach, RuleReader.run_bind hrun, RuleReader.run_bind hmore, RuleReader.run_pure]
    exact ⟨_, met₂, rfl, .cons ⟨⟨_, _, _, hrun⟩, hcovers⟩ hrel⟩
termination_by (depth, sizeOf schemas)

end

/-- However rules are read off a legible schema, they cover it. -/
theorem Reads.covers (hg : Grounded document known rank) {s : Schema} (hs : s.Legible known)
    {rules : List Rule} (hr : s.Reads document rules) :
    Covers document known rank document.referenceTexts.length s rules := by
  obtain ⟨depth, met, met', hrun⟩ := hr
  obtain ⟨rules', _, hrun', hc⟩ := read_covers hg hs (hg.rank_lt hs) depth met
  obtain ⟨rfl, -⟩ := Prod.mk.inj (Except.ok.inj (hrun.symm.trans hrun'))
  exact hc

/-- The rules of a legible schema can be read off it. -/
theorem Legible.exists_rules (hg : Grounded document known rank) {s : Schema}
    (hs : s.Legible known) : ∃ rules, s.rules document = .ok rules ∧ s.Reads document rules := by
  obtain ⟨rules, met, hrun, -⟩ :=
    read_covers hg hs (hg.rank_lt hs) document.referenceTexts.length []
  refine ⟨rules, ?_, _, _, _, hrun⟩
  rw [Schema.rules, hrun]
  rfl

end Schema

end FieldMask
