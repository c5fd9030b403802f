import RouteScaffold.Proofs.Marker.Revisions

/-!
# The Outline of What Is Routed

As long as no name holds a dollar sign, the registry of a marker role is a
function of what is routed, in the order in which it was made: the imports in
that order, and the blocks of the modules in that order, each with the lines
of its pages in that order.

The four revisions are the four changes of that list. A removal hits what it
is to hit and nothing else, because the names in the list are distinct words
and begin with capitals, so a name is no part of a segment, and because a
segment determines a name.

## Main definitions

* `Marker.outline`: The outline of what is routed.
* `Marker.Distinct`: What is routed can be told apart.

## Theorems

* `addModule_outline`, `addPage_outline`: What is added comes last.
* `removeModule_outline`, `removePage_outline`: What is removed is gone as if it
  had never been there.
* `uses_of_routed`: The names of what is routed are used.
-/

namespace RouteScaffold

open Naming Text

namespace Marker

/-! ### The outline -/

/-- The import of what is routed. -/
def importOf : Routed → Import
  | .module m => moduleImport m
  | .page p => pageImport p

/-- The lines of the pages of a module. -/
def leavesOf (m : ModuleRef) (live : List Routed) : List Leaf :=
  live.filterMap fun
    | .page p => if p.module = m then some ⟨p.segment, p.name⟩ else none
    | .module _ => none

/-- The blocks of the modules among some of what is routed, with lines for all
    that is routed. -/
def branchesOf (live : List Routed) (among : List Routed) : List Branch :=
  among.filterMap fun
    | .module m => some ⟨m.segment, m.name, leavesOf m live⟩
    | .page _ => none

/-- The outline of what is routed, in the order in which it was made. -/
def outline (role : Text) (live : List Routed) : Outline :=
  ⟨role, true, live.map importOf, branchesOf live live⟩

/-- What is routed can be told apart: it has accepted names without dollar
    signs, no two of them alike and none that of the router, and no page is
    without its module. -/
structure Distinct (live : List Routed) : Prop where
  modules : ∀ m, .module m ∈ live → m.Accepted ∧ '$' ∉ m.name
  pages : ∀ p, .page p ∈ live → p.Accepted ∧ '$' ∉ p.name ∧ .module p.module ∈ live
  names : (live.map Routed.name).Nodup
  router : ∀ x ∈ live, x.name ≠ "Route".toList
  constants : ((branchesOf live live).map fun b => asConstant b.segment).Nodup

variable {live : List Routed}

theorem mem_branchesOf {among : List Routed} {b : Branch} (h : b ∈ branchesOf live among) :
    ∃ m, .module m ∈ among ∧ b = ⟨m.segment, m.name, leavesOf m live⟩ := by
  rcases List.mem_filterMap.mp h with ⟨x, hx, hb⟩
  cases x with
  | module m => exact ⟨m, hx, (Option.some.inj hb).symm⟩
  | page p => exact absurd hb (by simp)

theorem mem_leavesOf {m : ModuleRef} {l : Leaf} (h : l ∈ leavesOf m live) :
    ∃ p, .page p ∈ live ∧ p.module = m ∧ l = ⟨p.segment, p.name⟩ := by
  rcases List.mem_filterMap.mp h with ⟨x, hx, hl⟩
  cases x with
  | module m => exact absurd hl (by simp)
  | page p =>
      dsimp only at hl
      split at hl
      · next hp => exact ⟨p, hx, hp, (Option.some.inj hl).symm⟩
      · exact absurd hl (by simp)

theorem Distinct.sound_outline (h : Distinct live) {role : Text} (hrole : isRoleName role = true) :
    (outline role live).Sound := by
  refine ⟨hrole, ?_, ?_, h.constants⟩
  · intro i hi
    rcases List.mem_map.mp hi with ⟨x, hx, rfl⟩
    cases x with
    | module m => exact sound_moduleImport (h.modules m hx).1.spelled
    | page p => exact sound_pageImport (h.pages p hx).1.spelled
  · intro b hb
    rcases mem_branchesOf hb with ⟨m, hm, rfl⟩
    have hspelled := (h.modules m hm).1.spelled
    refine ⟨hspelled.segment, hspelled.name, hspelled.constant, fun l hl => ?_⟩
    rcases mem_leavesOf hl with ⟨p, hp, -, rfl⟩
    have hpage := (h.pages p hp).1.spelled
    exact ⟨hpage.segment, hpage.name⟩

/-- What is routed has a segment and an accepted name without a dollar sign. -/
theorem Distinct.accepts (h : Distinct live) {x : Routed} (hx : x ∈ live) :
    ∃ segment, Accepts segment x.name ∧ '$' ∉ x.name := by
  cases x with
  | module m => exact ⟨m.segment, h.modules m hx⟩
  | page p => exact ⟨p.segment, (h.pages p hx).1.2, (h.pages p hx).2.1⟩

/-- Two routed things with one name are one. -/
theorem Distinct.eq_of_name (h : Distinct live) {x y : Routed} (hx : x ∈ live) (hy : y ∈ live)
    (hname : x.name = y.name) : x = y :=
  List.inj_on_of_nodup_map h.names hx hy hname

/-- Two routed modules with one segment are one. -/
theorem Distinct.eq_of_segment (h : Distinct live) {m m' : ModuleRef} (hm : .module m ∈ live)
    (hm' : .module m' ∈ live) (hseg : m.segment = m'.segment) : m = m' := by
  have haccepted := (h.modules m hm).1
  rw [ModuleRef.Accepted, hseg] at haccepted
  have hname := accepts_name_eq haccepted (h.modules m' hm').1
  exact Routed.module.inj (h.eq_of_name hm hm' hname)

/-! ### Names and imports -/

/-- Which words an import holds. -/
theorem tokens_importBody {name source : Text} (hne : name ≠ []) (hword : ∀ c ∈ name, isWord c = true) :
    tokens (Pattern.importBody name source) = name :: "from".toList :: tokens source := by
  have hopen : tokens ['\x7b'] = [] := by decide
  have hfrom : tokens "\x7d from ".toList = ["from".toList] := by decide
  have hsplit : Pattern.importBody name source
      = ['\x7b'] ++ ' ' :: (name ++ ' ' :: ("\x7d from ".toList ++ '"' :: (source ++ '"' :: []))) := by
    rw [show Pattern.importBody name source = "\x7b ".toList ++ name ++ " \x7d from \"".toList ++ source
      ++ "\"".toList from rfl]
    simp
  rw [hsplit, tokens_append_sep (by decide), tokens_append_sep (by decide), tokens_append_sep (by decide),
    tokens_append_sep (by decide), hopen, tokens_word hne hword, hfrom]
  simp [tokens, Text.words]

theorem mentions_importBody (name source w : Text) (hne : w ≠ []) (hw : ∀ c ∈ w, isWord c = true) :
    (⟨name, source⟩ : Import).mentions w = true ↔ w ∈ tokens (Pattern.importBody name source) := by
  rw [Import.mentions, @mentionsFrom_congr (some ' ') none (by decide) _ hne, ← mentions_eq]
  exact mentions_iff_mem_tokens hne hw

theorem tokens_moduleSource (segment name : Text) :
    tokens (Registry.moduleSource segment name) = "modules".toList :: (tokens segment ++ tokens name) := by
  have hdots : tokens "../modules".toList = ["modules".toList] := by decide
  rw [moduleSource_eq, show "../modules/".toList ++ (segment ++ '/' :: name)
    = "../modules".toList ++ '/' :: (segment ++ '/' :: name) from rfl,
    tokens_append_sep (by decide), tokens_append_sep (by decide), hdots]
  rfl

theorem tokens_pageSource (segment name : Text) : tokens (Registry.pageSource segment name)
    = "modules".toList :: (tokens segment ++ "pages".toList :: tokens name) := by
  have hdots : tokens "../modules".toList = ["modules".toList] := by decide
  have hpages : tokens "pages".toList = ["pages".toList] := by decide
  have hsplit : Registry.pageSource segment name
      = "../modules".toList ++ '/' :: (segment ++ '/' :: ("pages".toList ++ '/' :: name)) := by
    rw [pageSource_eq]
    simp
  rw [hsplit, tokens_append_sep (by decide), tokens_append_sep (by decide), tokens_append_sep (by decide),
    hdots, hpages]
  rfl

/-- An accepted name is mentioned by the import of what has the name, and by no
    other import of what is routed. -/
theorem mentions_importOf {x : Routed} {segment name : Text} (hname : Accepts segment name)
    (hd : '$' ∉ name) (hx : ∃ segment', Accepts segment' x.name ∧ '$' ∉ x.name)
    (hmodule : x.home.Accepted) :
    (importOf x).mentions name = decide (x.name = name) := by
  rcases hx with ⟨segment', hx, hdx⟩
  have hword := word_name hname hd
  have hne := accepts_name_ne hname
  have hupper := upper_name hname hd
  have hrun : tokens x.name = [x.name] := tokens_word (accepts_name_ne hx) (word_name hx hdx)
  have hseg := not_mem_words_segment hname hd hmodule (p := fun c => !isWord c)
  -- The other words of an import are small, and the segment is no such name.
  have hsmall : ∀ t : Text, t.head?.any Char.isUpper = false → name ≠ t := by
    rintro t ht rfl
    rw [hupper] at ht
    exact absurd ht (by simp)
  have hiff : (importOf x).mentions name = true ↔ name = x.name := by
    cases x with
    | module m =>
        rw [importOf, moduleImport, mentions_importBody _ _ _ hne hword,
          @tokens_importBody m.name _ (accepts_name_ne hx) (word_name hx hdx),
          tokens_moduleSource, show tokens m.name = [m.name] from hrun]
        simp only [List.mem_cons, List.mem_append, List.not_mem_nil, or_false]
        -- Each word of the line is the name, or differs from it.
        constructor
        · rintro (h | h | h | h | h)
          · exact h
          · exact absurd h (hsmall _ (by decide))
          · exact absurd h (hsmall _ (by decide))
          · exact absurd h hseg
          · exact h
        · exact Or.inl
    | page p =>
        rw [importOf, pageImport, mentions_importBody _ _ _ hne hword,
          @tokens_importBody p.name _ (accepts_name_ne hx) (word_name hx hdx),
          tokens_pageSource, show tokens p.name = [p.name] from hrun]
        simp only [List.mem_cons, List.mem_append, List.not_mem_nil, or_false]
        constructor
        · rintro (h | h | h | h | h | h)
          · exact h
          · exact absurd h (hsmall _ (by decide))
          · exact absurd h (hsmall _ (by decide))
          · exact absurd h hseg
          · exact absurd h (hsmall _ (by decide))
          · exact h
        · exact Or.inl
  rw [Bool.eq_iff_iff, hiff, decide_eq_true_eq, eq_comm]

theorem Distinct.mentions (h : Distinct live) {x : Routed} (hx : x ∈ live) {segment name : Text}
    (hname : Accepts segment name) (hd : '$' ∉ name) :
    (importOf x).mentions name = decide (x.name = name) := by
  refine mentions_importOf hname hd (h.accepts hx) ?_
  cases x with
  | module m => exact (h.modules m hx).1
  | page p => exact (h.pages p hx).1.1

/-- The import of the router mentions no accepted name but its own. -/
theorem mentions_router {segment name : Text} (hname : Accepts segment name) (hd : '$' ∉ name)
    (hrouter : name ≠ "Route".toList) :
    (⟨"Route", "react-router-dom"⟩ : Import).mentions name = false := by
  cases hm : (⟨"Route", "react-router-dom"⟩ : Import).mentions name with
  | false => rfl
  | true =>
      exfalso
      have hupper := upper_name hname hd
      have hmem := (mentions_importBody _ _ _ (accepts_name_ne hname) (word_name hname hd)).mp hm
      rw [tokens_importBody (by decide) (by decide), show tokens "react-router-dom".toList
        = ["react".toList, "router".toList, "dom".toList] by decide] at hmem
      simp only [List.mem_cons, List.not_mem_nil, or_false] at hmem
      rcases hmem with hmem | hmem | hmem | hmem | hmem
      · exact hrouter hmem
      · rw [hmem] at hupper
        exact absurd hupper (by decide)
      · rw [hmem] at hupper
        exact absurd hupper (by decide)
      · rw [hmem] at hupper
        exact absurd hupper (by decide)
      · rw [hmem] at hupper
        exact absurd hupper (by decide)

/-! ### Names in use -/

theorem importLine_part {o : Outline} {i : Import} (hi : i ∈ o.imports) :
    Snippet.importLine i.name i.source <:+: o.text := by
  rcases List.append_of_mem hi with ⟨is, js, hsplit⟩
  refine ⟨o.headerText ++ '\n' :: is.flatMap Import.text, '\n' :: (js.flatMap Import.text
    ++ (o.signature ++ (o.opening ++ ("\n        ".toList ++ (o.branches.flatMap Branch.text
    ++ (rootSentinel ++ Outline.tail)))))), ?_⟩
  rw [show o.text = (o.headerText ++ ('\n' :: o.imports.flatMap Import.text)) ++ (o.signature
    ++ (o.opening ++ ("\n        ".toList ++ (o.branches.flatMap Branch.text
    ++ (rootSentinel ++ Outline.tail))))) from rfl, hsplit, List.flatMap_append, List.flatMap_cons]
  simp [Import.text]

/-- The names of what is routed are used. -/
theorem uses_of_routed (role : Text) {x : Routed} (hx : x ∈ live) (hne : x.name ≠ []) :
    Guard.uses (outline role live).text x.name = true := by
  have hmem : importOf x ∈ (outline role live).imports := List.mem_map.mpr ⟨x, hx, rfl⟩
  have hname : (importOf x).name = x.name := by
    cases x <;> rfl
  rcases importLine_delimited (importOf x) with ⟨s, r, hline⟩
  by_contra hunused
  rw [Bool.not_eq_true, ← hname] at hunused
  exact not_infix_of_unused hline (by rw [hname]; exact hne) (by decide) (by decide) hunused
    (importLine_part hmem)

/-- The name of the router is used. -/
theorem uses_router (o : Outline) : Guard.uses o.text "Route".toList = true := by
  have hopening : o.opening = [] ++ '<' :: ("Route".toList ++ ' ' :: ("path=\"/".toList
      ++ (Text.lower o.role ++ "\">".toList))) := by
    rw [show o.opening = "<Route path=\"/".toList ++ Text.lower o.role ++ "\">".toList from rfl]
    simp
  by_contra hunused
  rw [Bool.not_eq_true] at hunused
  refine not_infix_of_unused hopening (by decide) (by decide) (by decide) hunused ?_
  refine ⟨o.head ++ o.signature, "\n        ".toList ++ (o.branches.flatMap Branch.text
    ++ (rootSentinel ++ Outline.tail)), ?_⟩
  rw [show o.text = o.head ++ (o.signature ++ (o.opening ++ ("\n        ".toList
    ++ (o.branches.flatMap Branch.text ++ (rootSentinel ++ Outline.tail))))) from rfl]
  simp only [List.append_assoc]

/-! ### Additions -/

theorem leavesOf_append (m : ModuleRef) (xs ys : List Routed) :
    leavesOf m (xs ++ ys) = leavesOf m xs ++ leavesOf m ys := List.filterMap_append

theorem branchesOf_append (live xs ys : List Routed) :
    branchesOf live (xs ++ ys) = branchesOf live xs ++ branchesOf live ys := List.filterMap_append

/-- What counts for the blocks of some modules is the lines of each. -/
theorem branchesOf_congr {live' among : List Routed}
    (h : ∀ m, .module m ∈ among → leavesOf m live' = leavesOf m live) :
    branchesOf live' among = branchesOf live among := by
  apply List.filterMap_congr
  intro x hx
  cases x with
  | module m => simp only [h m hx]
  | page p => rfl

/-- A new module comes last, with an empty block. -/
theorem addModule_outline (h : Distinct live) (role : Text) {m : ModuleRef}
    (hm : .module m ∉ live) :
    (outline role live).addModule m = outline role (live ++ [.module m]) := by
  have hempty : leavesOf m live = [] := by
    refine List.filterMap_eq_nil_iff.mpr fun x hx => ?_
    cases x with
    | module m' => rfl
    | page p =>
        have hp := (h.pages p hx).2.2
        have : p.module ≠ m := fun heq => hm (heq ▸ hp)
        simp [this]
  have hbranches : branchesOf (live ++ [.module m]) (live ++ [.module m])
      = branchesOf live live ++ [⟨m.segment, m.name, []⟩] := by
    have hleaves : ∀ m', leavesOf m' (live ++ [.module m]) = leavesOf m' live := by
      intro m'
      rw [leavesOf_append]
      simp [leavesOf]
    rw [@branchesOf_congr live _ _ fun m' _ => hleaves m', branchesOf_append,
      show branchesOf live [.module m] = [⟨m.segment, m.name, leavesOf m live⟩] from rfl, hempty]
  rw [outline, outline, hbranches, List.map_append]
  rfl

theorem Distinct.constant_inj (h : Distinct live) {m m' : ModuleRef} (hm : .module m ∈ live)
    (hm' : .module m' ∈ live) (heq : asConstant m.segment = asConstant m'.segment) : m = m' := by
  have hmem : ∀ m, .module m ∈ live →
      (⟨m.segment, m.name, leavesOf m live⟩ : Branch) ∈ branchesOf live live := fun m hm =>
    List.mem_filterMap.mpr ⟨.module m, hm, rfl⟩
  have hbranch := List.inj_on_of_nodup_map h.constants (hmem m hm) (hmem m' hm') heq
  rw [Branch.mk.injEq] at hbranch
  exact h.eq_of_segment hm hm' hbranch.1

/-- A new page comes last in the block of its module. -/
theorem addPage_outline (h : Distinct live) (role : Text) {p : PageRef}
    (hp : .module p.module ∈ live) :
    (outline role live).addPage p = outline role (live ++ [.page p]) := by
  have hbranches : branchesOf (live ++ [.page p]) (live ++ [.page p])
      = (branchesOf live live).map fun b => if asConstant b.segment = asConstant p.module.segment
        then { b with leaves := b.leaves ++ [⟨p.segment, p.name⟩] } else b := by
    rw [branchesOf_append, show branchesOf (live ++ [.page p]) [.page p] = [] from rfl,
      List.append_nil, branchesOf, branchesOf, List.map_filterMap]
    apply List.filterMap_congr
    intro x hx
    cases x with
    | page p' => rfl
    | module m =>
        have hleaves : leavesOf m (live ++ [.page p]) = leavesOf m live
            ++ if p.module = m then [⟨p.segment, p.name⟩] else [] := by
          rw [leavesOf_append]
          by_cases hm : p.module = m <;> simp [leavesOf, hm]
        simp only [Option.map_some, hleaves]
        by_cases hm : p.module = m
        · rw [if_pos hm, if_pos (by rw [hm])]
        · rw [if_neg hm, if_neg fun heq => hm (h.constant_inj hx hp heq).symm, List.append_nil]
  rw [outline, outline, hbranches, List.map_append]
  rfl

/-! ### Removals -/

/-- Whether the source of an import begins with the folder of a module's pages
    is a matter of the module. -/
theorem pageSource_prefix {m : ModuleRef} (hm : ∀ c ∈ m.segment, isTame c = true) {x : Routed}
    (hx : ∀ c ∈ x.home.segment, isTame c = true) (hname : ∀ c ∈ x.name, isTame c = true) :
    (Registry.pageSource m.segment []).isPrefixOf (importOf x).source = true ↔
      ∃ p, x = .page p ∧ p.module.segment = m.segment := by
  have hslash : ∀ {t : Text}, (∀ c ∈ t, isTame c = true) → ∀ c ∈ t, decide (c = '/') = false := by
    intro t ht c hc
    rw [decide_eq_false_iff_not]
    rintro rfl
    exact absurd (ht _ hc) (by decide)
  -- Two names behind the same folder are cut at the first slash.
  have hcut : ∀ {s t : Text} {r r' : Text}, (∀ c ∈ s, isTame c = true) → (∀ c ∈ t, isTame c = true) →
      s ++ '/' :: r = t ++ '/' :: r' → s = t ∧ r = r' := by
    intro s t r r' hs ht heq
    have := Pattern.cut_unique (p := (· = '/')) heq (hslash hs) (hslash ht) (by simp) (by simp)
    exact ⟨this.1, this.2.2⟩
  have hpages : ∀ segment name : Text, Registry.pageSource segment name
      = "../modules/".toList ++ (segment ++ '/' :: ("pages".toList ++ '/' :: name)) := by
    intro segment name
    rw [pageSource_eq]
    simp
  rw [List.isPrefixOf_iff_prefix, hpages]
  constructor
  · rintro ⟨r, hr⟩
    cases x with
    | page p =>
        refine ⟨p, rfl, ?_⟩
        rw [importOf, pageImport, hpages, List.append_assoc] at hr
        have hr := List.append_cancel_left hr
        rw [List.append_assoc, List.cons_append] at hr
        exact (hcut hm hx hr).1.symm
    -- The import of a module has no slash behind its segment.
    | module m' =>
        exfalso
        rw [importOf, moduleImport, moduleSource_eq, List.append_assoc] at hr
        have hr := List.append_cancel_left hr
        rw [List.append_assoc, List.cons_append] at hr
        have hrest := (hcut hm hx hr).2
        have hmem : '/' ∈ m'.name := by
          rw [← hrest]
          simp
        exact absurd (hname '/' hmem) (by decide)
  · rintro ⟨p, rfl, hseg⟩
    refine ⟨p.name, ?_⟩
    rw [importOf, pageImport, hpages, hseg]
    simp

theorem filter_leavesOf {m : ModuleRef} (keep : Routed → Bool)
    (h : ∀ p, .page p ∈ live → p.module = m → keep (.page p) = true) :
    leavesOf m (live.filter keep) = leavesOf m live := by
  rw [leavesOf, leavesOf, List.filterMap_filter]
  apply List.filterMap_congr
  intro x hx
  cases x with
  | module m' => simp
  | page p =>
      by_cases hp : p.module = m
      · simp [hp, h p hx hp]
      · simp [hp]

/-- Removing the first member with a key is removing all, if keys differ. -/
theorem eraseP_eq_filter {α β : Type} [DecidableEq β] (key : α → β) (k : β) {xs : List α}
    (h : (xs.map key).Nodup) :
    xs.eraseP (fun x => key x = k) = xs.filter fun x => !decide (key x = k) := by
  induction xs with
  | nil => rfl
  | cons x xs ih =>
      rw [List.map_cons, List.nodup_cons] at h
      by_cases hx : key x = k
      · rw [List.eraseP_cons_of_pos (by simpa using hx), List.filter_cons_of_neg (by simp [hx])]
        refine (List.filter_eq_self.mpr fun y hy => ?_).symm
        have : key y ≠ k := fun heq => h.1 (List.mem_map.mpr ⟨y, hy, heq.trans hx.symm⟩)
        simp [this]
      · rw [List.eraseP_cons_of_neg (by simpa using hx), List.filter_cons_of_pos (by simp [hx]),
          ih h.2]

theorem Distinct.segments_nodup (h : Distinct live) :
    ((branchesOf live live).map Branch.segment).Nodup := by
  have := h.constants
  rw [show (fun b : Branch => asConstant b.segment) = asConstant ∘ Branch.segment from rfl,
    ← List.map_map] at this
  exact List.Nodup.of_map _ this

/-- Changing the first member with a key is changing all, if keys differ. -/
theorem onFirst_eq_map {α β : Type} [DecidableEq β] (key : α → β) (k : β) {f : α → α} {xs : List α}
    (h : (xs.map key).Nodup) :
    onFirst (fun x => key x = k) f xs = xs.map fun x => if key x = k then f x else x := by
  induction xs with
  | nil => rfl
  | cons x xs ih =>
      rw [List.map_cons, List.nodup_cons] at h
      by_cases hx : key x = k
      · have hrest : xs.map (fun x => if key x = k then f x else x) = xs.map id := by
          apply List.map_congr_left
          intro y hy
          have : key y ≠ k := fun heq => h.1 (List.mem_map.mpr ⟨y, hy, heq.trans hx.symm⟩)
          simp [this]
        rw [List.map_cons, hrest, List.map_id]
        simp [onFirst, hx]
      · simp [onFirst, hx, ih h.2]

/-- The lines in a block have different segments. -/
theorem Distinct.leaves_nodup (h : Distinct live) (m : ModuleRef) :
    ((leavesOf m live).map Leaf.segment).Nodup := by
  have hnames : live.Pairwise fun x y => x.name ≠ y.name := List.pairwise_map.mp h.names
  rw [leavesOf, List.map_filterMap]
  refine List.Pairwise.filterMap _ ?_ (List.Pairwise.and_mem.mp hnames)
  rintro x y ⟨hx, hy, hne⟩ s hs t ht heq
  cases x with
  | module m' => exact absurd hs (by simp)
  | page p =>
      cases y with
      | module m' => exact absurd ht (by simp)
      | page p' =>
          have hs' : p.segment = s := by
            by_cases hm : p.module = m <;> simp [hm] at hs
            exact hs
          have ht' : p'.segment = t := by
            by_cases hm : p'.module = m <;> simp [hm] at ht
            exact ht
          have haccepted := (h.pages p hx).1.2
          rw [hs', heq, ← ht'] at haccepted
          exact hne (accepts_name_eq haccepted (h.pages p' hy).1.2)

/-- A removed module is gone with its pages. -/
theorem removeModule_outline (h : Distinct live) (role : Text) {m : ModuleRef} (hm : m.Accepted)
    (hd : '$' ∉ m.name) (hrouter : m.name ≠ "Route".toList)
    (honly : ∀ x ∈ live, x.name = m.name → x = .module m) :
    (outline role live).removeModule m = outline role (Routed.without live (.module m)) := by
  -- The names and the segments determine each other, so only this module has this segment.
  have hsegment : ∀ m', .module m' ∈ live → m'.segment = m.segment → m' = m := by
    intro m' hm' hseg
    have haccepted := (h.modules m' hm').1
    rw [ModuleRef.Accepted, hseg] at haccepted
    exact Routed.module.inj (honly _ hm' (accepts_name_eq haccepted hm))
  -- An import goes by its name, or by the folder of the module.
  have hout : ∀ x ∈ live, (!(importOf x).mentions m.name
      && !(Registry.pageSource m.segment []).isPrefixOf (importOf x).source) = !x.belongsTo m := by
    intro x hx
    have haccepted : x.home.Accepted := by
      cases x with
      | module m' => exact (h.modules m' hx).1
      | page p => exact (h.pages p hx).1.1
    rcases h.accepts hx with ⟨segment, haccepts, -⟩
    have hpre := pageSource_prefix (m := m) (tame_segment hm) (x := x) (tame_segment haccepted)
      (tame_name haccepts)
    rw [h.mentions hx hm hd]
    -- Of the modules, only this one goes.
    cases x with
    | module m' =>
        have hnot : (Registry.pageSource m.segment []).isPrefixOf (importOf (.module m')).source
            = false := by
          rw [Bool.eq_false_iff, Ne, hpre]
          rintro ⟨p, hp, -⟩
          exact absurd hp (by simp)
        rw [hnot]
        by_cases heq : m' = m
        · simp [Routed.belongsTo, Routed.name, heq]
        · have hne : m'.name ≠ m.name := fun hn => heq (Routed.module.inj (honly _ hx hn))
          simp [Routed.belongsTo, Routed.name, heq, hne]
    -- Of the pages, those of this module go, by their folder.
    | page p =>
        have hne : p.name ≠ m.name := fun hn => absurd (honly _ hx hn) (by simp)
        by_cases heq : p.module = m
        · have hyes := hpre.mpr ⟨p, rfl, by rw [heq]⟩
          simp [Routed.belongsTo, heq, hyes]
        · have hnot : (Registry.pageSource m.segment []).isPrefixOf (importOf (.page p)).source
              = false := by
            rw [Bool.eq_false_iff, Ne, hpre]
            rintro ⟨p', hp', hseg⟩
            rw [← Routed.page.inj hp'] at hseg
            exact heq (hsegment _ (h.pages p hx).2.2 hseg)
          simp [Routed.belongsTo, Routed.name, heq, hne, hnot]
  have himports : ((live.map importOf).filter fun i => !i.mentions m.name).filter (fun i =>
      !(Registry.pageSource m.segment []).isPrefixOf i.source)
      = (Routed.without live (.module m)).map importOf := by
    rw [List.filter_filter, List.filter_map, Routed.without]
    congr 1
    apply List.filter_congr
    intro x hx
    rw [← hout x hx, Bool.and_comm]
    rfl
  -- The block with this segment is that of the module, and goes with all its leaves.
  have hbranches : (branchesOf live live).eraseP (fun b => b.segment = m.segment)
      = branchesOf (Routed.without live (.module m)) (Routed.without live (.module m)) := by
    rw [eraseP_eq_filter Branch.segment m.segment h.segments_nodup, branchesOf, branchesOf,
      List.filter_filterMap, Routed.without, List.filterMap_filter]
    apply List.filterMap_congr
    intro x hx
    cases x with
    | page p =>
        simp
    | module m' =>
        by_cases heq : m' = m
        · simp [Routed.belongsTo, heq]
        · have hne : m'.segment ≠ m.segment := fun hs => heq (hsegment m' hx hs)
          -- The leaves of the other modules stay.
          have hleaves : leavesOf m' (live.filter fun x => !x.belongsTo m) = leavesOf m' live := by
            apply filter_leavesOf
            intro p hp hpm
            have : p.module ≠ m := fun hs => heq (hpm.symm.trans hs)
            simp [Routed.belongsTo, this]
          have hkeep : (!(Routed.module m').belongsTo m) = true := by
            simp [Routed.belongsTo, heq]
          simp only [hkeep, if_true, hleaves]
          simp [hne]
  have hheader : (true && !(⟨"Route", "react-router-dom"⟩ : Import).mentions m.name
      && !(Registry.pageSource m.segment []).isPrefixOf "react-router-dom".toList) = true := by
    rw [mentions_router hm hd hrouter]
    rfl
  rw [Outline.removeModule, Outline.removeImports, Outline.removeImports, Outline.cutBranch]
  dsimp only
  rw [show (outline role live).header = true from rfl, hheader,
    show (outline role live).imports = live.map importOf from rfl, himports,
    show (outline role live).branches = branchesOf live live from rfl, hbranches]
  rfl

/-- A removed page is gone from the imports and from the block of its module. -/
theorem removePage_outline (h : Distinct live) (role : Text) {p : PageRef} (hp : p.Accepted)
    (hd : '$' ∉ p.name) (hrouter : p.name ≠ "Route".toList)
    (honly : ∀ x ∈ live, x.name = p.name → x = .page p) :
    (outline role live).removePage p = outline role (Routed.without live (.page p)) := by
  have hsegment : ∀ p', .page p' ∈ live → p'.segment = p.segment → p' = p := by
    intro p' hp' hseg
    have haccepted := (h.pages p' hp').1.2
    rw [hseg] at haccepted
    exact Routed.page.inj (honly _ hp' (accepts_name_eq haccepted hp.2))
  -- The import goes by its name, which no other route has.
  have hout : ∀ x ∈ live, (!(importOf x).mentions p.name) = decide (x ≠ .page p) := by
    intro x hx
    rw [h.mentions hx hp.2 hd]
    by_cases heq : x = .page p
    · simp [heq, Routed.name]
    · have hne : x.name ≠ p.name := fun hn => heq (honly x hx hn)
      simp [heq, hne]
  have himports : (live.map importOf).filter (fun i => !i.mentions p.name)
      = (Routed.without live (.page p)).map importOf := by
    rw [List.filter_map, Routed.without]
    congr 1
    apply List.filter_congr
    intro x hx
    rw [← hout x hx]
    rfl
  -- The leaf goes by its segment, which no other page of the module has.
  have hleaves : ∀ m, (leavesOf m live).eraseP (fun l => l.segment = p.segment)
      = leavesOf m (Routed.without live (.page p)) := by
    intro m
    rw [eraseP_eq_filter Leaf.segment p.segment (h.leaves_nodup m), Routed.without, leavesOf,
      leavesOf, List.filter_filterMap, List.filterMap_filter]
    apply List.filterMap_congr
    intro x hx
    cases x with
    | module m' => simp
    | page p' =>
        by_cases heq : p' = p
        · by_cases hm : p.module = m <;> simp [heq, hm]
        · have hne : p'.segment ≠ p.segment := fun hs => heq (hsegment p' hx hs)
          by_cases hm : p'.module = m <;> simp [heq, hm, hne]
  have hbranches : onFirst (fun b => b.segment = p.module.segment) (fun b =>
      { b with leaves := b.leaves.eraseP fun l => l.segment = p.segment }) (branchesOf live live)
      = branchesOf (Routed.without live (.page p)) (Routed.without live (.page p)) := by
    rw [onFirst_eq_map Branch.segment p.module.segment h.segments_nodup, branchesOf, branchesOf,
      List.map_filterMap, Routed.without, List.filterMap_filter]
    apply List.filterMap_congr
    intro x hx
    cases x with
    | page p' => simp
    | module m =>
        simp only [Option.map_some, hleaves m]
        -- The block of any other module stays as it is.
        by_cases hm : m.segment = p.module.segment
        · simp [hm, Routed.without]
        · have hsame : leavesOf m (live.filter fun x => x ≠ .page p) = leavesOf m live := by
            apply filter_leavesOf
            intro p' _ hpm
            have : p' ≠ p := fun hs => hm (by rw [← hpm, hs])
            simp [this]
          have hkeep : decide (Routed.module m ≠ .page p) = true := by simp
          rw [if_neg hm, hsame, if_pos hkeep]
  have hheader : (true && !(⟨"Route", "react-router-dom"⟩ : Import).mentions p.name) = true := by
    rw [mentions_router hp.2 hd hrouter]
    rfl
  rw [Outline.removePage, Outline.removeImports, Outline.cutLeaf]
  dsimp only
  rw [show (outline role live).header = true from rfl, hheader,
    show (outline role live).imports = live.map importOf from rfl, himports,
    show (outline role live).branches = branchesOf live live from rfl, hbranches]
  rfl

/-! ### What can be told apart -/

theorem Distinct.nil : Distinct [] :=
  ⟨by simp, by simp, by simp, by simp, by simp [branchesOf]⟩

/-- The constants of the modules, which blocks have whatever their lines are. -/
theorem constants_branchesOf (live among : List Routed) :
    (branchesOf live among).map (fun b => asConstant b.segment) = among.filterMap fun
      | .module m => some (asConstant m.segment)
      | .page _ => none := by
  rw [branchesOf, List.map_filterMap]
  apply List.filterMap_congr
  intro x hx
  cases x <;> rfl

theorem Distinct.add_module (h : Distinct live) {m : ModuleRef} (hm : m.Accepted)
    (hd : '$' ∉ m.name) (hname : ∀ x ∈ live, x.name ≠ m.name) (hrouter : m.name ≠ "Route".toList)
    (hconstant : ∀ b ∈ branchesOf live live, asConstant b.segment ≠ asConstant m.segment) :
    Distinct (live ++ [.module m]) := by
  refine ⟨?_, ?_, ?_, ?_, ?_⟩
  -- The five conditions are carried over one by one; the new module differs in its name and its constant.
  · intro m' hm'
    rcases List.mem_append.mp hm' with hm' | hm'
    · exact h.modules m' hm'
    · rw [Routed.module.inj (List.mem_singleton.mp hm')]
      exact ⟨hm, hd⟩
  · intro p hp
    rcases List.mem_append.mp hp with hp | hp
    · have := h.pages p hp
      exact ⟨this.1, this.2.1, List.mem_append_left _ this.2.2⟩
    · exact absurd (List.mem_singleton.mp hp) (by simp)
  · rw [List.map_append, List.nodup_append]
    refine ⟨h.names, by simp, ?_⟩
    intro n hn n' hn' heq
    rcases List.mem_map.mp hn with ⟨x, hx, rfl⟩
    exact hname x hx (heq.trans (List.mem_singleton.mp hn'))
  · intro x hx
    rcases List.mem_append.mp hx with hx | hx
    · exact h.router x hx
    · rw [List.mem_singleton.mp hx]
      exact hrouter
  · rw [constants_branchesOf, List.filterMap_append, List.nodup_append,
      ← constants_branchesOf live live]
    refine ⟨h.constants, by simp, ?_⟩
    intro c hc c' hc' heq
    rcases List.mem_map.mp hc with ⟨b, hb, rfl⟩
    exact hconstant b hb (heq.trans (by simpa using hc'))

theorem Distinct.add_page (h : Distinct live) {p : PageRef} (hp : p.Accepted) (hd : '$' ∉ p.name)
    (hmodule : .module p.module ∈ live) (hname : ∀ x ∈ live, x.name ≠ p.name)
    (hrouter : p.name ≠ "Route".toList) : Distinct (live ++ [.page p]) := by
  -- A page adds no constant, and its module is there.
  refine ⟨?_, ?_, ?_, ?_, ?_⟩
  · intro m hm
    rcases List.mem_append.mp hm with hm | hm
    · exact h.modules m hm
    · exact absurd (List.mem_singleton.mp hm) (by simp)
  · intro p' hp'
    rcases List.mem_append.mp hp' with hp' | hp'
    · have := h.pages p' hp'
      exact ⟨this.1, this.2.1, List.mem_append_left _ this.2.2⟩
    · rw [Routed.page.inj (List.mem_singleton.mp hp')]
      exact ⟨hp, hd, List.mem_append_left _ hmodule⟩
  · rw [List.map_append, List.nodup_append]
    refine ⟨h.names, by simp, ?_⟩
    intro n hn n' hn' heq
    rcases List.mem_map.mp hn with ⟨x, hx, rfl⟩
    exact hname x hx (heq.trans (List.mem_singleton.mp hn'))
  · intro x hx
    rcases List.mem_append.mp hx with hx | hx
    · exact h.router x hx
    · rw [List.mem_singleton.mp hx]
      exact hrouter
  · rw [constants_branchesOf, List.filterMap_append, ← constants_branchesOf live live]
    simpa using h.constants

theorem Distinct.without (h : Distinct live) (x : Routed) : Distinct (Routed.without live x) := by
  have hsub : List.Sublist (Routed.without live x) live := by
    cases x <;> exact List.filter_sublist
  refine ⟨fun m hm => h.modules m (hsub.mem hm), ?_, h.names.sublist (hsub.map _),
    fun y hy => h.router y (hsub.mem hy), ?_⟩
  · intro p hp
    have hlive := h.pages p (hsub.mem hp)
    refine ⟨hlive.1, hlive.2.1, ?_⟩
    cases x with
    | module m =>
        have := (List.mem_filter.mp hp).2
        exact List.mem_filter.mpr ⟨hlive.2.2, this⟩
    | page p' => exact List.mem_filter.mpr ⟨hlive.2.2, by simp⟩
  · rw [constants_branchesOf]
    refine List.Nodup.sublist (hsub.filterMap _) ?_
    rw [← constants_branchesOf live live]
    exact h.constants

end Marker

end RouteScaffold
