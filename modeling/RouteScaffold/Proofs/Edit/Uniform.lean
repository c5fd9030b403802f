import RouteScaffold.Proofs.Edit.Inserting

/-!
# Files with Uniform Line Endings

A file whose lines all end one way is written back that way by every edit, as long
as the edits bring no carriage returns along. So several edits in a row are edits of
one text, and if the last of them leads back to the text that the first one found,
the file is the same to the byte.

A lone carriage return is an ordinary character in a file that ends its lines with
line feeds. In a file that uses pairs there must be none, since it could not be told
from a part of a pair.

## Main definitions

* `Text.Uniform`: A text whose lines all end one way.
* `Text.Fits`: A text in line feeds that can be written with an ending and read
  again.
* `Edit.LeadsIn`: Some edits lead from one such text to another.

## Theorems

* `Uniform.fits`: A uniform text is the text that is read of it, with its ending.
* `on_make_of_leadsIn`: Making edits that lead from one text to another.
-/

namespace RouteScaffold

namespace Text

variable {s t u : Text} {e : LineEnding}

/-- A text whose lines all end one way. -/
def Uniform (t : Text) : Prop := t.hasCrlf = false ∨ ∃ u : Text, '\r' ∉ u ∧ t = u.toCrlf

/-- A text in line feeds that a file with an ending can hold. -/
def Fits : LineEnding → Text → Prop
  | .lf, t => t.hasCrlf = false
  | .crlf, t => '\r' ∉ t ∧ '\n' ∈ t

theorem hasCrlf_cons {c : Char} {t : Text} (h : c = '\r' → t.head? ≠ some '\n') :
    hasCrlf (c :: t) = hasCrlf t := by
  rw [hasCrlf]
  rintro t' rfl rfl
  exact h rfl rfl

theorem hasCrlf_iff : t.hasCrlf = true ↔ ['\r', '\n'] <:+: t := by
  induction t with
  | nil => simp [hasCrlf]
  | cons c t ih =>
      by_cases h : c = '\r' ∧ t.head? = some '\n'
      · rcases h with ⟨rfl, hhead⟩
        cases t with
        | nil => exact absurd hhead (by simp)
        | cons d t =>
            rw [Option.some.inj hhead]
            exact ⟨fun _ => ⟨[], t, rfl⟩, fun _ => rfl⟩
      · rw [hasCrlf_cons fun hc hhead => h ⟨hc, hhead⟩, ih, List.infix_cons_iff]
        refine ⟨Or.inr, fun hin => hin.resolve_left ?_⟩
        rintro ⟨r, hr⟩
        rcases List.cons.inj hr with ⟨rfl, rfl⟩
        exact h ⟨rfl, rfl⟩

theorem toLf_of_hasCrlf (h : t.hasCrlf = false) : t.toLf = t := by
  induction t with
  | nil => rfl
  | cons c t ih =>
      have hc : c = '\r' → t.head? ≠ some '\n' := by
        rintro rfl hhead
        cases t with
        | nil => exact absurd hhead (by simp)
        | cons d t =>
            rw [Option.some.inj hhead] at h
            exact absurd h (by simp [hasCrlf])
      rw [hasCrlf_cons hc] at h
      rw [toLf_cons hc, ih h]

theorem hasCrlf_toCrlf (h : '\n' ∈ t) : t.toCrlf.hasCrlf = true := by
  rw [hasCrlf_iff]
  induction t with
  | nil => exact absurd h (by simp)
  | cons c t ih =>
      by_cases hc : c = '\n'
      · subst hc
        exact ⟨[], toCrlf t, rfl⟩
      · have hcons : toCrlf (c :: t) = c :: toCrlf t := by
          rw [toCrlf]
          exact hc
        rw [hcons, List.infix_cons_iff]
        exact Or.inr (ih ((List.mem_cons.mp h).resolve_left (Ne.symm hc)))

/-- A text that fits an ending is read again of the file that it is written to. -/
theorem Fits.reread (h : Fits e t) :
    (t.withEnding e).toLf = t ∧ LineEnding.detect (t.withEnding e) = e := by
  cases e with
  | lf =>
      have ht := toLf_of_hasCrlf h
      rw [withEnding, ht, ht, LineEnding.detect, if_neg (by rw [h]; simp)]
      exact ⟨rfl, rfl⟩
  | crlf =>
      rw [withEnding, toLf_of_no_return h.1, toLf_toCrlf, LineEnding.detect,
        if_pos (hasCrlf_toCrlf h.2)]
      exact ⟨rfl, rfl⟩

/-- A uniform text is what is read of it, written with the ending that it has. -/
theorem Uniform.fits (h : Uniform t) :
    Fits (.detect t) t.toLf ∧ t.toLf.withEnding (.detect t) = t := by
  cases hpair : t.hasCrlf with
  | false =>
      have ht := toLf_of_hasCrlf hpair
      rw [ht, LineEnding.detect, if_neg (by rw [hpair]; simp), withEnding, ht]
      exact ⟨hpair, rfl⟩
  | true =>
      rcases h with h | ⟨u, hu, rfl⟩
      · exact absurd (hpair.symm.trans h) (by simp)
      · rw [toLf_toCrlf, LineEnding.detect, if_pos hpair, withEnding, toLf_of_no_return hu]
        refine ⟨⟨hu, ?_⟩, rfl⟩
        have hbreak := break_mem_toLf ((hasCrlf_iff.mp hpair).subset (show '\n' ∈ ['\r', '\n'] by simp))
        rwa [toLf_toCrlf] at hbreak

theorem hasCrlf_append (h : s.getLast? = some '\r' → t.head? ≠ some '\n') :
    hasCrlf (s ++ t) = (hasCrlf s || hasCrlf t) := by
  rw [Bool.eq_iff_iff, Bool.or_eq_true, hasCrlf_iff, hasCrlf_iff, hasCrlf_iff]
  constructor
  · rintro ⟨x, y, hxy⟩
    rw [List.append_assoc] at hxy
    -- A pair lies in the first part, in the second, or across, and that the premise excludes.
    rcases List.append_eq_append_iff.mp hxy with ⟨z, rfl, hz⟩ | ⟨z, rfl, rfl⟩
    · rcases z with - | ⟨c, - | ⟨d, z⟩⟩
      · exact Or.inr ⟨[], y, hz⟩
      · exfalso
        rw [List.cons_append, List.cons_append, List.cons_append, List.cons.injEq] at hz
        refine h (by rw [hz.1, List.getLast?_concat]) ?_
        rw [← List.nil_append t, ← hz.2]
        rfl
      · rw [List.cons_append, List.cons_append, List.cons_append, List.cons_append, List.cons.injEq,
          List.cons.injEq] at hz
        rw [← hz.1, ← hz.2.1]
        exact Or.inl ⟨x, z, by simp⟩
    · exact Or.inr ⟨z, y, by simp⟩
  · rintro (h | h)
    · exact h.trans (List.prefix_append s t).isInfix
    · exact h.trans (List.suffix_append s t).isInfix

theorem hasCrlf_of_infix (h : s <:+: t) (ht : hasCrlf t = false) : hasCrlf s = false := by
  rw [Bool.eq_false_iff, ne_eq, hasCrlf_iff] at ht ⊢
  exact fun hin => ht (hin.trans h)

/-- A text still fits if something without carriage returns is written into it, unless
    a carriage return becomes a part of a pair. -/
theorem Fits.insert_behind (h : Fits e (s ++ t)) (hu : '\r' ∉ u)
    (hjoin : s.getLast? = some '\r' → u.head? ≠ some '\n') : Fits e (s ++ (u ++ t)) := by
  cases e with
  | crlf =>
      rcases h with ⟨hreturn, hbreak⟩
      constructor
      · simp only [List.mem_append] at hreturn ⊢
        tauto
      · simp only [List.mem_append] at hbreak ⊢
        tauto
  | lf =>
      have hs : hasCrlf s = false := hasCrlf_of_infix (List.prefix_append s t).isInfix h
      have ht : hasCrlf t = false := hasCrlf_of_infix (List.suffix_append s t).isInfix h
      cases u with
      -- A return at the end of what is written is excluded, so neither seam makes a pair.
      | nil => exact h
      | cons c u =>
          have hlast : (c :: u).getLast? ≠ some '\r' := fun hlast => hu (List.mem_of_getLast? hlast)
          change hasCrlf (s ++ (c :: u ++ t)) = false
          rw [hasCrlf_append (s := s) (t := c :: u ++ t) hjoin,
            hasCrlf_append fun hlast' => absurd hlast' hlast, hs, ht, hasCrlf_of_no_return hu]
          rfl

/-- Something that does not begin with a line break makes no pair, whatever it stands
    behind. -/
theorem Fits.insert (h : Fits e (s ++ t)) (hu : '\r' ∉ u) (hhead : u.head? ≠ some '\n') :
    Fits e (s ++ (u ++ t)) :=
  h.insert_behind hu fun _ => hhead

end Text

namespace Tree

theorem putAt_putAt (loc : Location) (x y : Entry) (es : List (Location × Entry)) :
    putAt loc y (putAt loc x es) = putAt loc y es := by
  induction es with
  | nil => simp [putAt]
  | cons e es ih =>
      rcases e with ⟨l, z⟩
      by_cases hl : l = loc
      · simp [putAt, hl]
      · simp [putAt, hl, ih]

theorem putAt_of_entryAt {loc : Location} {x : Entry} {es : List (Location × Entry)}
    (h : entryAt loc es = some x) : putAt loc x es = es := by
  induction es with
  | nil => exact absurd h (by simp [entryAt])
  | cons e es ih =>
      rcases e with ⟨l, z⟩
      rw [entryAt] at h
      by_cases hl : l = loc
      · rw [if_pos hl] at h
        simp [putAt, hl, Option.some.inj h]
      · rw [if_neg hl] at h
        simp [putAt, hl, ih h]

/-- Of two things put at a location the second one stays. -/
theorem put_put (t : Tree) (loc : Location) (x y : Entry) :
    (t.put loc x).put loc y = t.put loc y :=
  congrArg Tree.mk (putAt_putAt loc x y t.entries)

/-- Putting at a location what is there changes nothing. -/
theorem put_of_get? {t : Tree} {loc : Location} {c : Content} (h : t.get? loc = some (.file c)) :
    t.put loc (.file c) = t := by
  rw [get?] at h
  split at h
  · exact absurd h (by simp)
  · exact congrArg Tree.mk (putAt_of_entryAt h)

/-- What is put in the place of a file is there then. -/
theorem get?_put_of_file {t : Tree} {loc : Location} {c : Content} (h : t.get? loc = some (.file c))
    (x : Entry) : (t.put loc x).get? loc = some x := by
  rw [get?_put _ _ _ _ ?_, if_pos rfl]
  rintro rfl
  rw [get?_root] at h
  exact absurd h (by simp)

end Tree

namespace Edit

/-- Some edits lead from one text to another if each can be made of what the one
    before has left, and that fits the ending of the file. -/
inductive LeadsIn (ending : LineEnding) (file : Text) : List Edit → Text → Text → Prop where
  | nil {t : Text} : LeadsIn ending file [] t t
  | cons {e : Edit} {es : List Edit} {t u v : Text} (exists_file : e.operation ≠ .append)
      (apply_eq : e.apply file t = .ok u) (fits : u.Fits ending)
      (rest : LeadsIn ending file es u v) : LeadsIn ending file (e :: es) t v

theorem written_of_fits {e : Edit} {file t u : Text} {ending : LineEnding} (ht : t.Fits ending)
    (happly : e.apply file t = .ok u) : e.written file (t.withEnding ending)
      = .ok (if u = t then none else some (u.withEnding ending)) := by
  rw [written, ht.reread.1, happly, ht.reread.2]
  rfl

end Edit

namespace Job

open Disk RouteScaffold.Tree Edit

variable {p : Path} {d : Disk} {loc : Location} {ending : LineEnding} {es : List Edit} {t v : Text}

/-- Edits that lead from the text of a file to another put that one in its place. -/
theorem on_mapM_of_leadsIn (h : LeadsIn ending p.text es t v) (ht : t.Fits ending)
    (hreplace : d.replaceable p = .ok loc)
    (hfile : d.tree.get? loc = some (.file (.text (t.withEnding ending)))) :
    ∃ bs d', (es.mapM (edit p)).on d = (.ok bs, d') ∧ d'.replaceable p = .ok loc
      ∧ d'.tree = d.tree.put loc (.file (.text (v.withEnding ending)))
      ∧ (bs.any id = false → v = t) := by
  induction h generalizing d with
  | nil => exact ⟨[], d, rfl, hreplace, (put_of_get? hfile).symm, fun _ => rfl⟩
  | @cons e es t u v hop happly hfits rest ih =>
      have hedit := on_edit_raw hop hreplace hfile rfl
      rw [written_of_fits ht happly] at hedit
      by_cases hsame : u = t
      -- The file is as it was, and so is what the edits behind this one find.
      · subst hsame
        rw [if_pos rfl] at hedit
        rcases ih hfits hreplace hfile with ⟨bs, d', hrun, hagain, htree, hany⟩
        refine ⟨false :: bs, d', ?_, hagain, htree, hany⟩
        rw [List.mapM_cons, on_bind_ok hedit, on_bind_ok hrun]
        rfl
      · rw [if_neg hsame] at hedit
        rcases replaceable_made hreplace (u.withEnding ending) with ⟨hagain, hnow⟩
        rcases ih hfits hagain hnow with ⟨bs, d', hrun, hagain', htree, -⟩
        refine ⟨true :: bs, d', ?_, hagain', ?_, fun hany => absurd hany (by simp)⟩
        · rw [List.mapM_cons, on_bind_ok hedit, on_bind_ok hrun]
          -- Only the text that was written last counts.
          rfl
        · rw [htree, made, Tree.apply, put_put]

/-- A revision that leads from the text of a file to a different one. -/
theorem on_make_of_leadsIn {r : Revision} (h : LeadsIn ending r.file.text r.edits t v)
    (ht : t.Fits ending) (hreplace : d.replaceable r.file = .ok loc)
    (hfile : d.tree.get? loc = some (.file (.text (t.withEnding ending)))) (hne : v ≠ t) :
    ∃ d', r.make.on d = (.ok true, d') ∧ d'.replaceable r.file = .ok loc
      ∧ d'.tree = d.tree.put loc (.file (.text (v.withEnding ending))) := by
  rcases on_mapM_of_leadsIn h ht hreplace hfile with ⟨bs, d', hrun, hagain, htree, hany⟩
  have hchanged : bs.any id = true := by
    cases hb : bs.any id with
    | true => rfl
    | false => exact absurd (hany hb) hne
  refine ⟨d', ?_, hagain, htree⟩
  rw [Revision.make, on_bind_ok hrun, hchanged]
  rfl

end Job

end RouteScaffold
