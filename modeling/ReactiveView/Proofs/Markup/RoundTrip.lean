import ReactiveView.Proofs.Markup.Merge
/-!
# Reading back what was written

Reading is forgiving and writing has one form, so reading what was written gives the fragments
back only where reading could have made them, and only up to texts that meet (`mergeAll`).

* `sound_of_read`: reading makes `Sound` fragments only, token by token.
* `readFrom_writeAll`: the text of sound fragments, spread, is read as exactly these fragments,
  whatever is open around them.
* `read_write_of_read`: both together, for the fragments of any text.
-/
namespace ReactiveView.Markup

open Text

/-! ## Sound tokens -/

theorem endsName_of_lower : ∀ n < 26, endsName (Char.ofNat (n + 97)) = false := by decide

theorem isBasicLetter_of_lower : ∀ n < 26, isBasicLetter (Char.ofNat (n + 97)) := by decide

theorem endsName_lower {c : Char} (h : endsName c = false) : endsName (lower c) = false := by
  rcases lower_eq_or c with heq | ⟨n, hn, heq⟩
  · rwa [heq]
  · rw [heq]
    exact endsName_of_lower n hn

theorem isBasicLetter_lower {c : Char} (h : isBasicLetter c) : isBasicLetter (lower c) := by
  rcases lower_eq_or c with heq | ⟨n, hn, heq⟩
  · rwa [heq]
  · rw [heq]
    exact isBasicLetter_of_lower n hn

theorem endsName_of_isBlank {c : Char} (h : isBlank c) : endsName c := by
  simp [endsName, h]

theorem endsName_of_isBasicLetter {c : Char} (h : isBasicLetter c) : endsName c = false := by
  rw [Bool.eq_false_iff]
  intro hc
  simp only [endsName, Bool.or_eq_true, beq_iff_eq] at hc
  rcases hc with (((((hb | rfl) | rfl) | rfl) | rfl) | rfl) | rfl
  · rw [isBasicLetter_eq_false_of_isBlank hb] at h
    cases h
  all_goals exact absurd h (by decide)

theorem readName_cons {c : Char} (h : endsName c = false) (cs : List Char) :
    (readName (c :: cs)).1.toList = lower c :: (cs.takeWhile fun c => !endsName c).map lower := by
  simp [readName, lowered, h]

theorem isName_readName {c : Char} (h : endsName c = false) (cs : List Char) :
    IsName (readName (c :: cs)).1 where
  nonempty := by rw [readName_cons h]; exact List.cons_ne_nil _ _
  inside d hd := by
    rw [readName_cons h] at hd
    rcases List.mem_cons.mp hd with rfl | hd
    · exact endsName_lower h
    · obtain ⟨e, he, rfl⟩ := List.mem_map.mp hd
      have := List.all_eq_true.mp (List.all_takeWhile (p := fun c => !endsName c) (l := cs)) e he
      exact endsName_lower (by simpa using this)
  lower := lowered_lowered _

theorem isTag_readName {c : Char} (h : isBasicLetter c) (cs : List Char) :
    IsTag (readName (c :: cs)).1 where
  toIsName := isName_readName (endsName_of_isBasicLetter h) cs
  letter d hd := by
    rw [readName_cons (endsName_of_isBasicLetter h)] at hd
    cases hd
    exact isBasicLetter_lower h

theorem readAttribute_name {cs rest : List Char} {a : String × String}
    (h : readAttribute cs = .ok (a, rest)) : a.1 = (readName cs).1 := by
  unfold readAttribute at h
  simp only at h
  split at h
  · split at h
    · cases h
    · cases h
      rfl
  · cases h
    rfl

theorem isName_of_readAttributes {tag : String} {cs rest : List Char}
    {attributes : List (String × String)} {closed : Bool}
    (h : readAttributes tag cs = .ok (attributes, closed, rest)) :
    ∀ a ∈ attributes, IsName a.1 := by
  fun_induction readAttributes tag cs generalizing attributes closed rest with
  | case1 | case4 | case5 | case6 => cases h
  | case2 | case3 => cases h; exact fun a ha => absurd ha List.not_mem_nil
  | case7 cs c more _ _ _ hc a after ha _ attributes' closed' rest' hr ih =>
    cases h
    intro a' ha'
    rcases List.mem_cons.mp ha' with rfl | ha'
    · rw [readAttribute_name ha]
      exact isName_readName (by simpa using hc) more
    · exact ih hr a' ha'

/-- What holds of the tokens that a text falls into. -/
def SoundToken : Token → Prop
  | .opening tag attributes _ => IsTag tag ∧ AreAttributes attributes
  | .text s => s.toList ≠ []
  | .comment s => IsComment s
  | .closing _ => True
  | .declaration => True

theorem mem_of_mem_firsts {attributes : List (String × String)} {a : String × String}
    (h : a ∈ Entries.firsts attributes) : a ∈ attributes := by
  induction attributes with
  | nil => exact h
  | cons p rest ih =>
    rcases List.mem_cons.mp h with rfl | h
    · simp
    · exact List.mem_cons_of_mem _ (ih (List.mem_filter.mp h).1)

theorem soundToken_of_readOpening {c : Char} {cs rest : List Char} {t : Token}
    (hc : isBasicLetter c) (h : readOpening (c :: cs) = .ok (t, rest)) : SoundToken t := by
  unfold readOpening at h
  split at h
  · cases h
  · next attributes closed after ha =>
    cases h
    exact ⟨isTag_readName hc cs, fun a hm => isName_of_readAttributes ha a (mem_of_mem_firsts hm),
      Entries.nodup_keys_firsts attributes⟩

theorem cut_mark (mark after : List Char) : cut mark (mark ++ after) = some ([], after) := by
  cases mark with
  | nil => cases after <;> simp [cut]
  | cons m mark =>
    have hp : (m :: mark).isPrefixOf (m :: (mark ++ after)) :=
      List.isPrefixOf_iff_prefix.mpr (List.prefix_append (m :: mark) after)
    rw [List.cons_append, cut, if_pos hp]
    simp

/-- What comes after a mark does not change which one is the first. -/
theorem cut_append {mark cs before after : List Char} (h : cut mark cs = some (before, after))
    (after' : List Char) : cut mark (before ++ mark ++ after') = some (before, after') := by
  induction cs generalizing before with
  | nil =>
    unfold cut at h
    split at h
    · cases h
      exact cut_mark mark after'
    · cases h
  | cons c cs ih =>
    unfold cut at h
    split at h
    · cases h
      exact cut_mark mark after'
    · next hp =>
      obtain ⟨⟨body, after⟩, hparts, heq⟩ := Option.map_eq_some_iff.mp h
      cases heq
      -- a mark at the front would end within `body ++ mark`, and so be at the front of `c :: cs`
      have hp' : ¬mark.isPrefixOf (c :: (body ++ mark ++ after')) := by
        intro hp'
        refine hp (List.isPrefixOf_iff_prefix.mpr ?_)
        rw [cut_eq_some hparts]
        have hlen : mark.length ≤ (c :: (body ++ mark)).length := by simp; omega
        have := List.prefix_of_prefix_length_le (List.isPrefixOf_iff_prefix.mp hp')
          (List.prefix_append (c :: (body ++ mark)) after') hlen
        exact this.trans (List.prefix_append (c :: (body ++ mark)) after)
      rw [List.cons_append, List.cons_append, cut, if_neg hp', ih hparts]
      rfl

theorem decode_cons_ne_nil (c : Char) (cs : List Char) : decode (c :: cs) ≠ [] := by
  unfold decode
  split
  · split <;> exact List.cons_ne_nil _ _
  · exact List.cons_ne_nil _ _

theorem soundToken_readText (c : Char) (cs : List Char) : SoundToken (readText c cs).1 := by
  simpa [SoundToken, readText] using decode_cons_ne_nil c _

theorem soundToken_of_readComment {cs rest : List Char} {t : Token}
    (h : readComment cs = .ok (t, rest)) : SoundToken t := by
  unfold readComment at h
  split at h
  · cases h
  · next body after hc =>
    cases h
    have hbody : (String.ofList body).toList = body := String.toList_ofList
    intro after'
    rw [hbody]
    exact cut_append hc after'

theorem soundToken_of_readDeclaration {start cs rest : List Char} {t : Token}
    (h : readDeclaration start cs = .ok (t, rest)) : SoundToken t := by
  unfold readDeclaration at h
  split at h
  · cases h
  · cases h
    exact trivial

theorem soundToken_of_readClosing {cs rest : List Char} {t : Token}
    (h : readClosing cs = .ok (t, rest)) : SoundToken t := by
  unfold readClosing at h
  split at h
  · cases h
    exact trivial
  · cases h

theorem soundToken_of_readToken {c : Char} {cs rest : List Char} {t : Token}
    (h : readToken c cs = .ok (t, rest)) : SoundToken t := by
  have htext : .ok (readText c cs) = Except.ok (ε := Failure) (t, rest) → SoundToken t := by
    intro h
    have := soundToken_readText c cs
    rwa [Except.ok.inj h] at this
  unfold readToken at h
  split at h
  · split at h
    · exact soundToken_of_readComment h
    · exact soundToken_of_readDeclaration h
    · exact soundToken_of_readDeclaration h
    · exact soundToken_of_readClosing h
    · split at h
      · next hd => exact soundToken_of_readOpening hd h
      · exact htext h
    · exact htext h
  · exact htext h

/-! ## Sound fragments from sound tokens -/

/-- Nothing is asked of the children of an element. -/
def Loose (_ : List Fragment) : Prop := True

/-- An open element that reading can have come to. -/
structure SoundOpen (o : Open) : Prop where
  tag : IsTag o.tag
  attributes : AreAttributes o.attributes
  notVoid : Fragment.isVoid o.tag = false
  children : ∀ f ∈ o.children, Sound Loose f

/-- Trees that reading can have come to. -/
structure SoundBuilder (b : Builder) : Prop where
  opened : ∀ o ∈ b.opened, SoundOpen o
  complete : ∀ f ∈ b.complete, Sound Loose f

theorem soundBuilder_add {b : Builder} {f : Fragment} (hb : SoundBuilder b) (hf : Sound Loose f) :
    SoundBuilder (b.add f) := by
  unfold Builder.add
  split
  · exact ⟨hb.opened, List.forall_mem_cons.mpr ⟨hf, hb.complete⟩⟩
  · next o outer heq =>
    have ho := hb.opened o (by simp [heq])
    refine ⟨List.forall_mem_cons.mpr ⟨?_, fun p hp => hb.opened p (by simp [heq, hp])⟩, hb.complete⟩
    exact { ho with children := List.forall_mem_cons.mpr ⟨hf, ho.children⟩ }

theorem soundBuilder_feed {b b' : Builder} {t : Token} (hb : SoundBuilder b) (ht : SoundToken t)
    (h : b.feed t = .ok b') : SoundBuilder b' := by
  cases t with
  | declaration =>
    cases h
    exact hb
  | text s =>
    cases h
    exact soundBuilder_add hb (.text ht)
  | comment s =>
    cases h
    exact soundBuilder_add hb (.comment ht)
  | opening tag attributes closed =>
    simp only [Builder.feed] at h
    split at h
    · cases h
      exact soundBuilder_add hb
        (.element ht.1 ht.2 (fun _ => rfl) trivial fun f hf => absurd hf List.not_mem_nil)
    · next hv =>
      cases h
      have ho : SoundOpen ⟨tag, attributes, []⟩ :=
        { tag := ht.1, attributes := ht.2, notVoid := by simp_all, children := by simp }
      exact ⟨List.forall_mem_cons.mpr ⟨ho, hb.opened⟩, hb.complete⟩
  | closing tag =>
    simp only [Builder.feed] at h
    split at h
    · cases h
    · next o outer heq =>
      split at h
      · cases h
        have ho := hb.opened o (by simp [heq])
        have houter : SoundBuilder { b with opened := outer } :=
          ⟨fun p hp => hb.opened p (by simp [heq, hp]), hb.complete⟩
        refine soundBuilder_add houter (.element ho.tag ho.attributes ?_ trivial ?_)
        · rw [ho.notVoid]
          exact fun hv => absurd hv Bool.false_ne_true
        · exact fun f hf => ho.children f (List.mem_reverse.mp hf)
      · cases h

theorem sound_of_readFrom {b : Builder} {cs : List Char} {fs : List Fragment}
    (hb : SoundBuilder b) (h : readFrom b cs = .ok fs) : ∀ f ∈ fs, Sound Loose f := by
  fun_induction readFrom b cs with
  | case1 b message hm => cases h
  | case2 b fragments hm =>
    cases h
    unfold Builder.finish at hm
    split at hm
    · cases hm
      exact fun f hf => hb.complete f (List.mem_reverse.mp hf)
    · cases hm
  | case3 => cases h
  | case4 => cases h
  | case5 b c rest token after ht b' hf _ ih =>
    exact ih (soundBuilder_feed hb (soundToken_of_readToken ht) hf) h

/-- Reading makes sound fragments only. -/
theorem sound_of_read {source : String} {fs : List Fragment} (h : read source = .ok fs) :
    ∀ f ∈ fs, Sound Loose f := by
  unfold read at h
  simp only at h
  split at h
  · cases h
  · next fragments hr =>
    cases h
    exact sound_of_readFrom ⟨by simp [Builder.empty], by simp [Builder.empty]⟩ hr

/-! ## Reading written tokens -/

/-- A token is at the front of a text, in front of the given rest. -/
def Fronts (t : Token) (after cs : List Char) : Prop :=
  ∃ c rest, cs = c :: rest ∧ readToken c rest = .ok (t, after)

theorem readFrom_of_fronts {b b' : Builder} {t : Token} {after cs : List Char}
    (h : Fronts t after cs) (hf : b.feed t = .ok b') : readFrom b cs = readFrom b' after := by
  obtain ⟨c, rest, rfl, ht⟩ := h
  conv => lhs; unfold readFrom
  split
  · next h' => rw [ht] at h'; cases h'
  · next t' after' h' =>
    rw [ht] at h'
    cases h'
    rw [hf]

theorem readName_append {name : String} (hn : IsName name) {after : List Char}
    (ha : Stops (fun c => !endsName c) after) : readName (name.toList ++ after) = (name, after) := by
  have hname : ∀ c ∈ name.toList, (!endsName c) = true := fun c hc => by rw [hn.inside c hc]; rfl
  unfold readName
  rw [takeWhile_append_stop hname ha, dropWhile_append_stop hname ha, String.ofList_toList, hn.lower]

theorem readAttributes_end (tag : String) (after : List Char) :
    readAttributes tag ('>' :: after) = .ok ([], false, after) := by
  have hskip : skipBlank ('>' :: after) = '>' :: after := skipBlank_cons (by decide) after
  unfold readAttributes
  split
  · next h => rw [hskip] at h; cases h
  · next rest h => rw [hskip] at h; cases h; rfl
  · next rest h => rw [hskip] at h; cases h
  · next c rest hne _ h =>
    rw [hskip] at h
    cases h
    exact absurd rfl hne

theorem readAttributes_cons {tag : String} {c : Char} {cs rest after after' : List Char}
    {a : String × String} {attributes : List (String × String)} {closed : Bool}
    (hs : skipBlank cs = c :: rest) (hc : endsName c = false)
    (ha : readAttribute (c :: rest) = .ok (a, after))
    (hr : readAttributes tag after = .ok (attributes, closed, after')) :
    readAttributes tag cs = .ok (a :: attributes, closed, after') := by
  unfold readAttributes
  split
  · next h => rw [hs] at h; cases h
  · next h => rw [hs] at h; cases h; exact absurd hc (by decide)
  · next h => rw [hs] at h; cases h; exact absurd hc (by decide)
  · next d more h1 h2 h =>
    rw [hs] at h
    cases h
    rw [dif_neg (by simp [hc])]
    split
    · next h' => rw [ha] at h'; cases h'
    · next a' after'' h' =>
      rw [ha] at h'
      cases h'
      rw [hr]

theorem cut_of_ne {mark : Char} {cs : List Char} (h : ∀ c ∈ cs, c ≠ mark) (after : List Char) :
    cut [mark] (cs ++ mark :: after) = some (cs, after) := by
  induction cs with
  | nil => exact cut_mark [mark] after
  | cons c cs ih =>
    have hc : mark ≠ c := (h c (by simp)).symm
    rw [List.cons_append, cut, if_neg (by simp [hc]), ih fun d hd => h d (by simp [hd])]
    rfl

/-- The text between a quote and the next one is read as it was before it was escaped. -/
theorem readValue_escapeAttribute (value : String) (after : List Char) :
    readValue ('"' :: (escapeAttribute value.toList ++ '"' :: after)) = .ok (value, after) := by
  have hne : ∀ c ∈ escapeAttribute value.toList, c ≠ '"' := fun c hc => ne_of_mem_escapeAttribute hc
  have hcut := cut_of_ne hne after
  simp only [readValue, true_or, if_true, hcut, decode_escapeAttribute, String.ofList_toList]

theorem readAttribute_write {a : String × String} (hn : IsName a.1) (after : List Char) :
    readAttribute (a.1.toList ++ '=' :: '"' :: (escapeAttribute a.2.toList ++ '"' :: after))
      = .ok (a, after) := by
  have hstop : Stops (fun c => !endsName c)
      ('=' :: '"' :: (escapeAttribute a.2.toList ++ '"' :: after)) := stops_cons (by decide) _
  unfold readAttribute
  rw [readName_append hn hstop]
  simp only
  rw [skipBlank_cons (by decide)]
  simp only
  rw [skipBlank_cons (by decide), readValue_escapeAttribute]

theorem readAttributes_write (tag : String) {attributes : List (String × String)}
    (hn : ∀ a ∈ attributes, IsName a.1) (after : List Char) :
    readAttributes tag (writeAttributes attributes ++ '>' :: after)
      = .ok (attributes, false, after) := by
  induction attributes with
  | nil => exact readAttributes_end tag after
  | cons a attributes ih =>
    have ha := hn a (by simp)
    obtain ⟨c, rest, hname⟩ := List.exists_cons_of_ne_nil ha.nonempty
    have hc : endsName c = false := ha.inside c (by simp [hname])
    have hblank : isBlank c = false := by
      rw [Bool.eq_false_iff]
      intro hb
      rw [endsName_of_isBlank hb] at hc
      cases hc
    have hread := readAttribute_write ha (writeAttributes attributes ++ '>' :: after)
    rw [hname] at hread
    refine readAttributes_cons ?_ hc hread (ih fun b hb => hn b (by simp [hb]))
    simp only [writeAttributes, List.flatMap_cons, hname, List.cons_append, List.append_assoc,
      List.nil_append]
    have hspace : Blank [' '] := by simp [Blank]; decide
    exact (skipBlank_append hspace _).trans (skipBlank_cons hblank _)

theorem firsts_of_nodup {attributes : List (String × String)}
    (h : (Entries.keys attributes).Nodup) : Entries.firsts attributes = attributes := by
  induction attributes with
  | nil => rfl
  | cons p rest ih =>
    obtain ⟨k, v⟩ := p
    obtain ⟨hk, hrest⟩ := List.nodup_cons.mp h
    rw [Entries.firsts, ih hrest]
    congr 1
    refine List.filter_eq_self.mpr fun a ha => ?_
    have hmem : a.1 ∈ rest.map (·.1) := List.mem_map_of_mem ha
    have hne : a.1 ≠ k := fun heq => hk (heq ▸ hmem)
    simpa using hne

theorem readToken_letter {c : Char} (h : isBasicLetter c) (cs : List Char) :
    readToken '<' (c :: cs) = readOpening (c :: cs) := by
  unfold readToken
  rw [if_pos rfl]
  split
  · next heq => cases heq; exact absurd h (by decide)
  · next heq => cases heq; exact absurd h (by decide)
  · next heq => cases heq; exact absurd h (by decide)
  · next heq => cases heq; exact absurd h (by decide)
  · next d _ _ _ _ _ heq => cases heq; rw [if_pos h]
  · next heq => cases heq

theorem fronts_opening {tag : String} {attributes : Entries String} (ht : IsTag tag)
    (ha : AreAttributes attributes) (closed : Bool) (after : List Char) :
    Fronts (.opening tag attributes false) after
      ((Token.opening tag attributes closed).write ++ after) := by
  obtain ⟨c, rest, htag⟩ := List.exists_cons_of_ne_nil ht.nonempty
  have hstop : Stops (fun c => !endsName c) (writeAttributes attributes ++ '>' :: after) := by
    cases attributes with
    | nil => exact stops_cons (by decide) _
    | cons a attributes => exact stops_cons (by decide) _
  refine ⟨'<', tag.toList ++ (writeAttributes attributes ++ '>' :: after), ?_, ?_⟩
  · simp [Token.write]
  · have hopen : readOpening (tag.toList ++ (writeAttributes attributes ++ '>' :: after))
        = .ok (.opening tag attributes false, after) := by
      unfold readOpening
      rw [readName_append ht.toIsName hstop]
      simp only [readAttributes_write tag ha.name after, firsts_of_nodup ha.distinct]
    rw [← hopen, htag]
    exact readToken_letter (ht.letter c (by simp [htag])) _

theorem fronts_closing {tag : String} (ht : IsTag tag) (after : List Char) :
    Fronts (.closing tag) after ((Token.closing tag).write ++ after) := by
  have hstop : Stops (fun c => !endsName c) ('>' :: after) := stops_cons (by decide) after
  refine ⟨'<', '/' :: (tag.toList ++ '>' :: after), by simp [Token.write], ?_⟩
  have hclose : readClosing (tag.toList ++ '>' :: after) = .ok (.closing tag, after) := by
    unfold readClosing
    rw [readName_append ht.toIsName hstop]
    simp only [skipBlank_cons (c := '>') (by decide)]
  exact hclose

theorem fronts_comment {s : String} (hs : IsComment s) (after : List Char) :
    Fronts (.comment s) after ((Token.comment s).write ++ after) := by
  refine ⟨'<', '!' :: '-' :: '-' :: (s.toList ++ "-->".toList ++ after), by simp [Token.write], ?_⟩
  have hread : readComment (s.toList ++ "-->".toList ++ after) = .ok (.comment s, after) := by
    unfold readComment
    rw [hs after]
    simp only [String.ofList_toList]
  exact hread

theorem fronts_text {s : String} (hs : s.toList ≠ []) {after : List Char}
    (ha : Stops (· ≠ '<') after) : Fronts (.text s) after ((Token.text s).write ++ after) := by
  obtain ⟨c, rest, hesc⟩ := List.exists_cons_of_ne_nil (escapeText_ne_nil hs)
  have hfree : ∀ d ∈ c :: rest, d ≠ '<' := fun d hd => (ne_of_mem_escapeText (hesc ▸ hd)).1
  have hrest : ∀ d ∈ rest, decide (d ≠ '<') = true := fun d hd => by simpa using hfree d (by simp [hd])
  refine ⟨c, rest ++ after, by simp [Token.write, hesc], ?_⟩
  unfold readToken
  rw [if_neg (hfree c (by simp))]
  unfold readText
  rw [takeWhile_append_stop hrest ha, dropWhile_append_stop hrest ha, ← hesc, decode_escapeText,
    String.ofList_toList]

/-! ## Reading written fragments -/

/-- A fragment is read back in front of whatever can follow its text. -/
def Reread (f : Fragment) : Prop :=
  ∀ (b : Builder) (after : List Char), (isText f → Stops (· ≠ '<') after) →
    readFrom b (writeOne f after) = readFrom (b.add f) after

/-- All that is not text starts with a mark that ends a text. -/
theorem stops_writeOne {f : Fragment} (h : isText f = false) (after : List Char) :
    Stops (· ≠ '<') (writeOne f after) := by
  cases f with
  | text s => cases h
  | comment s => exact stops_cons (by decide) _
  | element tag attributes children => exact stops_cons (by decide) _

theorem stops_writeAll {f : Fragment} {fs : List Fragment} (hs : Spread (f :: fs)) (hf : isText f)
    {after : List Char} (ha : Stops (· ≠ '<') after) : Stops (· ≠ '<') (writeAll fs after) := by
  cases fs with
  | nil => exact ha
  | cons g rest => exact stops_writeOne (hs.1 hf g rfl) _

theorem readFrom_writeAll_of {fs : List Fragment} (h : ∀ f ∈ fs, Reread f) (hs : Spread fs)
    (b : Builder) {after : List Char} (ha : Stops (· ≠ '<') after) :
    readFrom b (writeAll fs after) = readFrom (fs.foldl Builder.add b) after := by
  induction fs generalizing b with
  | nil => rfl
  | cons f rest ih =>
    have hf : readFrom b (writeOne f (writeAll rest after))
        = readFrom (b.add f) (writeAll rest after) :=
      h f (by simp) b _ fun ht => stops_writeAll hs ht ha
    rw [writeAll, hf, ih (fun g hg => h g (by simp [hg])) hs.2]
    rfl

theorem foldl_add_opened (o : Open) (outer : List Open) (complete fs : List Fragment) :
    fs.foldl Builder.add ⟨o :: outer, complete⟩
      = ⟨{ o with children := fs.reverse ++ o.children } :: outer, complete⟩ := by
  induction fs generalizing o with
  | nil => rfl
  | cons f rest ih =>
    rw [List.foldl_cons, Builder.add, ih]
    simp

theorem foldl_add_empty (complete fs : List Fragment) :
    fs.foldl Builder.add ⟨[], complete⟩ = ⟨[], fs.reverse ++ complete⟩ := by
  induction fs generalizing complete with
  | nil => rfl
  | cons f rest ih =>
    rw [List.foldl_cons, Builder.add, ih]
    simp

theorem reread_of_sound {f : Fragment} (h : Sound Spread f) : Reread f := by
  induction h with
  | text hs =>
    intro b after ha
    exact readFrom_of_fronts (fronts_text hs (ha rfl)) rfl
  | comment hs =>
    intro b after _
    exact readFrom_of_fronts (fronts_comment hs after) rfl
  | @element tag attributes children htag hattributes hvoid hrow _ ih =>
    intro b after _
    rw [writeOne]
    split
    · next hv =>
      have hchildren : children = [] := hvoid hv
      refine readFrom_of_fronts (fronts_opening htag hattributes false after) ?_
      simp [Builder.feed, hv, hchildren]
    · next hv =>
      have hopen : b.feed (.opening tag attributes false)
          = .ok ⟨⟨tag, attributes, []⟩ :: b.opened, b.complete⟩ := by
        simp [Builder.feed, hv]
      have hclose : Builder.feed ⟨⟨tag, attributes, children.reverse⟩ :: b.opened, b.complete⟩
          (.closing tag) = .ok (b.add (.element tag attributes children)) := by
        simp [Builder.feed]
      have hstop : Stops (· ≠ '<') ((Token.closing tag).write ++ after) :=
        stops_cons (by decide) _
      rw [readFrom_of_fronts (fronts_opening htag hattributes false _) hopen,
        readFrom_writeAll_of ih hrow _ hstop, foldl_add_opened, List.append_nil,
        readFrom_of_fronts (fronts_closing htag after) hclose]

/-- The text of sound fragments is read as these fragments, whatever is open around them. -/
theorem readFrom_writeAll {fs : List Fragment} (h : ∀ f ∈ fs, Sound Spread f) (hs : Spread fs)
    (b : Builder) {after : List Char} (ha : Stops (· ≠ '<') after) :
    readFrom b (writeAll fs after) = readFrom (fs.foldl Builder.add b) after :=
  readFrom_writeAll_of (fun f hf => reread_of_sound (h f hf)) hs b ha

/-- Reading undoes writing on sound fragments. -/
theorem read_write {fs : List Fragment} (h : ∀ f ∈ fs, Sound Spread f) (hs : Spread fs) :
    read (write fs) = .ok fs := by
  have hend : readFrom ⟨[], fs.reverse ++ []⟩ [] = .ok fs := by
    unfold readFrom
    simp [Builder.finish]
  have hread : readFrom .empty (writeAll fs []) = .ok fs := by
    rw [readFrom_writeAll h hs .empty (stops_nil _), Builder.empty, foldl_add_empty, hend]
  simp only [read, write, String.toList_ofList, hread]

/-- Where texts meet in sound fragments, reading undoes writing up to merging them. -/
theorem read_write_merged {row : List Fragment → Prop} {fs : List Fragment}
    (h : ∀ f ∈ fs, Sound row f) :
    read (write fs) = .ok (mergeAll fs) ∧ write (mergeAll fs) = write fs := by
  have hwrite : write (mergeAll fs) = write fs := congrArg String.ofList (writeAll_mergeAll fs [])
  refine ⟨?_, hwrite⟩
  rw [← hwrite]
  exact read_write (sound_mergeAll h) (spread_mergeAll fs)

/-- What was read from a text is read back from its canonical text, up to texts that meet, and that
text is its own canonical text. -/
theorem read_write_of_read {source : String} {fs : List Fragment} (h : read source = .ok fs) :
    read (write fs) = .ok (mergeAll fs) ∧ (read (write fs)).map write = .ok (write fs) := by
  obtain ⟨hread, hwrite⟩ := read_write_merged (sound_of_read h)
  exact ⟨hread, by rw [hread, ← hwrite]; rfl⟩

theorem read_write_of_read_stray :
    read "a< b&amp;<!-- - -->" = .ok [.text "a", .text "< b&", .comment " - "] ∧
      read (write [.text "a", .text "< b&", .comment " - "])
        = .ok [.text "a< b&", .comment " - "] := by
  have h : read "a< b&amp;<!-- - -->" = .ok [.text "a", .text "< b&", .comment " - "] :=
    eq_ok_of_toOption (by decide +kernel)
  exact ⟨h, (read_write_of_read h).1⟩

end ReactiveView.Markup
