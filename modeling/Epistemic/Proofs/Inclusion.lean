import Epistemic.Proofs.Spacing
/-!
# The directive that names the domain file

A problem file may begin with a line that holds nothing but an include directive (`Inclusion`).  The name is found in
it, although the brace that closes the directive may stand right behind the name, and the rest of the file is read as if
the line were not there, although agent types are taken away before the directive is (`scan_inclusion`).
-/
namespace Epistemic.Source

open Text (isBlank splitLast?)

/-- An include directive on a line of its own: a name in lower case, with blanks before and behind it.  Braces may stand
in the name. -/
structure Inclusion where
  before : String
  name : String
  behind : String
  nonempty : name ≠ ""
  lower : Text.lower name.toList = name.toList
  letters : ∀ c ∈ name.toList, isBlank c = false ∧ c ≠ ';' ∧ c ≠ '['
  blanks : ∀ c ∈ before.toList ++ behind.toList, isBlank c = true ∧ c ≠ '\n' ∧ c ≠ '\r'

namespace Inclusion

/-- The directive as it is written. -/
def text (d : Inclusion) : String := "\x7binclude:" ++ d.before ++ d.name ++ d.behind ++ "\x7d"

variable (d : Inclusion)

theorem text_toList :
    d.text.toList = "\x7binclude:".toList ++ (d.before.toList ++ (d.name.toList ++ (d.behind.toList ++ ['\x7d']))) := by
  simp only [text, String.toList_append, List.append_assoc]
  rfl

end Inclusion

/-! ## Before the rules -/

theorem unifyNewlines_append {w : List Char} (h : '\r' ∉ w) (k : List Char) :
    unifyNewlines (w ++ k) = w ++ unifyNewlines k := by
  induction w with
  | nil => rfl
  | cons c w ih =>
    rw [List.mem_cons, not_or] at h
    rw [List.cons_append, unifyNewlines, ih h.2, List.cons_append]
    · exact fun _ hc _ => h.1 hc.symm
    · exact fun hc => h.1 hc.symm

theorem stripCommentsFrom_append {w : List Char} (h : ';' ∉ w) (k : List Char) :
    stripCommentsFrom false (w ++ k) = w ++ stripCommentsFrom false k := by
  induction w with
  | nil => rfl
  | cons c w ih =>
    rw [List.mem_cons, not_or] at h
    rw [List.cons_append, stripCommentsFrom, ih h.2]
    split
    · rfl
    · rw [if_neg (by simpa using Ne.symm h.1), List.cons_append]

theorem exists_lowerFrom_append {w : List Char} (h : ∀ c ∈ w, Text.lower [c] = [c]) (b : Bool) :
    ∃ b', ∀ k, Text.lowerFrom b (w ++ k) = w ++ Text.lowerFrom b' k := by
  induction w generalizing b with
  | nil => exact ⟨b, fun k => rfl⟩
  | cons c w ih =>
    obtain ⟨hc, hw⟩ := List.forall_mem_cons.1 h
    obtain ⟨b', hb'⟩ := ih hw (if Text.isCaseless c then b else Text.isCased c)
    exact ⟨b', fun k => by rw [List.cons_append, lowerFrom_cons hc, hb', List.cons_append]⟩

/-- **A line in lower case without a comment stays as it is**, and what follows it is made plain as if it stood alone.
-/
theorem plain_line {w : List Char} (h : ∀ c ∈ w, c ≠ '\r' ∧ c ≠ ';' ∧ Text.lower [c] = [c]) (k : List Char) :
    plain (unifyNewlines (w ++ '\n' :: k)) = w ++ '\n' :: plain (unifyNewlines k) := by
  obtain ⟨b, hb⟩ := exists_lowerFrom_append (fun c hc => (h c hc).2.2) false
  have hnewline : stripCommentsFrom false ('\n' :: unifyNewlines k) = '\n' :: stripComments (unifyNewlines k) := rfl
  rw [unifyNewlines_append fun hr => (h _ hr).1 rfl]
  show plain (w ++ '\n' :: unifyNewlines k) = _
  rw [plain, stripComments, stripCommentsFrom_append fun hs => (h _ hs).2.1 rfl, hnewline, Text.lower, hb,
    lowerFrom_blank (by decide)]
  rfl

theorem lowerChar_cases (c : Char) :
    (∃ x, Text.lowerChar c = [x]) ∨ c.toNat = 0x130 ∧ ∃ x, Text.lowerChar c = ['i', x] := by
  unfold Text.lowerChar
  split
  · exact .inl ⟨_, rfl⟩
  · split
    · rename_i hdot
      exact .inr ⟨by simpa using hdot, _, rfl⟩
    · split <;> exact .inl ⟨_, rfl⟩

/-- A text in lower case has no character that a capital letter stands for. -/
theorem lower_of_mem {cs : List Char} {b : Bool} (h : Text.lowerFrom b cs = cs) : ∀ c ∈ cs, Text.lower [c] = [c] := by
  induction cs generalizing b with
  | nil => exact fun c hc => absurd hc List.not_mem_nil
  | cons c cs ih =>
    rw [Text.lowerFrom] at h
    split at h
    · rename_i hsigma
      rw [beq_iff_eq] at hsigma
      subst hsigma
      have hhead := (List.cons.inj h).1
      split at hhead <;> exact absurd hhead (by decide)
    · rename_i hsigma
      rcases lowerChar_cases c with ⟨x, hx⟩ | ⟨hdot, x, hx⟩
      · rw [hx] at h
        obtain ⟨rfl, htail⟩ := List.cons.inj h
        refine List.forall_mem_cons.2 ⟨?_, ih htail⟩
        rw [Text.lower, Text.lowerFrom, if_neg hsigma, hx]
        rfl
      · rw [hx] at h
        obtain ⟨rfl, -⟩ := List.cons.inj h
        exact absurd hdot (by decide)

/-! ## The directive -/

theorem includeHead?_suffix {c : Char} {cs body : List Char} (h : includeHead? (c :: cs) = some body) :
    body <:+ cs := by
  unfold includeHead? at h
  split at h
  · rename_i ds heq
    cases heq
    simp only at h
    split at h
    · split at h
      · rename_i rest hrest
        cases h
        have hdropped : (':' :: body) <:+ cs := by
          rw [← hrest]
          exact (List.dropWhile_suffix _).trans ((List.drop_suffix 7 _).trans (List.dropWhile_suffix _))
        exact (List.suffix_cons ':' body).trans hdropped
      · cases h
    · cases h
  · cases h

theorem includeDirective_consumes : Rule.Consumes includeDirective := by
  intro c cs new rest h
  obtain ⟨⟨inner, rest'⟩, hbody, heq⟩ := Option.map_eq_some_iff.1 h
  cases heq
  unfold includeBody? at hbody
  obtain ⟨body, hhead, hsplit⟩ := Option.bind_eq_some_iff.1 hbody
  split at hsplit
  · rename_i d inner' after hlast
    cases hsplit
    obtain ⟨hline, -⟩ := splitLast?_some hlast
    have hend : (d :: inner' ++ ['\x7d']) ++ (after ++ body.dropWhile (· != '\n')) = body :=
      calc (d :: inner' ++ ['\x7d']) ++ (after ++ body.dropWhile (· != '\n'))
          = (d :: inner' ++ '\x7d' :: after) ++ body.dropWhile (· != '\n') := by simp
        _ = body.takeWhile (· != '\n') ++ body.dropWhile (· != '\n') := by rw [hline]
        _ = body := List.takeWhile_append_dropWhile
    exact List.IsSuffix.trans ⟨_, hend⟩ (includeHead?_suffix hhead)
  · cases hsplit

theorem includeHead?_of_ne (c : Char) (cs : List Char) (h : c ≠ '\x7b') : includeHead? (c :: cs) = none := by
  unfold includeHead?
  split
  · rename_i hc; exact absurd (List.cons.inj hc).1 h
  · rfl

theorem includeDirective_of_ne (c : Char) (cs : List Char) (h : c ≠ '\x7b') : includeDirective (c :: cs) = none := by
  rw [includeDirective, includeBody?, includeHead?_of_ne c cs h]
  rfl

theorem includeHead?_written (k : List Char) : includeHead? ("\x7binclude:".toList ++ k) = some k := by
  have hi : isBlank 'i' = false := by decide
  have hcolon : isBlank ':' = false := by decide
  simp [includeHead?, hi, hcolon]

namespace Inclusion

variable (d : Inclusion)

/-- What stands between the colon and the brace. -/
def body : List Char := d.before.toList ++ (d.name.toList ++ d.behind.toList)

theorem chars_eq (k : List Char) :
    d.text.toList ++ k = "\x7binclude:".toList ++ (d.body ++ '\x7d' :: k) := by
  rw [text_toList]
  simp only [body, List.append_assoc, List.cons_append, List.nil_append]

theorem name_ne_nil : d.name.toList ≠ [] := fun h => d.nonempty (String.toList_inj.1 h)

theorem before_isBlank : ∀ c ∈ d.before.toList, isBlank c = true :=
  fun c hc => (d.blanks c (List.mem_append_left _ hc)).1

theorem behind_isBlank : ∀ c ∈ d.behind.toList, isBlank c = true :=
  fun c hc => (d.blanks c (List.mem_append_right _ hc)).1

/-- What holds of the characters that are always written, of blanks and of the name holds of the whole directive. -/
theorem forall_mem_text {P : Char → Prop} (hwritten : ∀ c ∈ "\x7binclude:\x7d".toList, P c)
    (hblank : ∀ c, isBlank c = true → c ≠ '\n' → c ≠ '\r' → P c) (hname : ∀ c ∈ d.name.toList, P c) :
    ∀ c ∈ d.text.toList, P c := by
  have hblanks : ∀ c ∈ d.before.toList ++ d.behind.toList, P c := fun c hc =>
    hblank c (d.blanks c hc).1 (d.blanks c hc).2.1 (d.blanks c hc).2.2
  intro c hc
  rw [text_toList] at hc
  simp only [List.mem_append, List.mem_singleton] at hc
  rcases hc with hc | hc | hc | hc | rfl
  · exact hwritten c (List.mem_append_left ['\x7d'] hc)
  · exact hblanks c (List.mem_append_left _ hc)
  · exact hname c hc
  · exact hblanks c (List.mem_append_right _ hc)
  · exact hwritten _ (List.mem_append_right "\x7binclude:".toList (List.mem_singleton_self _))

theorem plain_text (k : List Char) :
    plain (unifyNewlines (d.text.toList ++ '\n' :: k)) = d.text.toList ++ '\n' :: plain (unifyNewlines k) := by
  apply plain_line
  refine d.forall_mem_text ?_ ?_ ?_
  · exact forall_mem_of_all (by decide +kernel)
  · intro c hc _ hreturn
    exact ⟨hreturn, fun h => absurd hc (by rw [h]; decide), (isCased_of_isBlank hc).1⟩
  · intro c hc
    obtain ⟨hblank, hsemi, -⟩ := d.letters c hc
    exact ⟨fun h => absurd hblank (by rw [h]; decide), hsemi, lower_of_mem d.lower c hc⟩

theorem not_newline : ∀ c ∈ d.text.toList, (c != '\n') = true := by
  refine d.forall_mem_text ?_ ?_ ?_
  · exact forall_mem_of_all (by decide)
  · intro c _ hline _
    exact bne_iff_ne.2 hline
  · intro c hc
    exact bne_iff_ne.2 fun h => absurd (d.letters c hc).1 (by rw [h]; decide)

theorem not_bracket : ∀ c ∈ d.text.toList, c ≠ '[' := by
  refine d.forall_mem_text ?_ ?_ ?_
  · exact forall_mem_of_all (by decide)
  · intro c hc _ _ h
    exact absurd hc (by rw [h]; decide)
  · exact fun c hc => (d.letters c hc).2.2

theorem body_ne_nil : d.body ≠ [] :=
  List.append_ne_nil_of_right_ne_nil _ (List.append_ne_nil_of_left_ne_nil d.name_ne_nil _)

theorem body_subset_text : d.body ++ ['\x7d'] ⊆ d.text.toList := by
  intro c hc
  rw [← List.append_nil d.text.toList, chars_eq]
  exact List.mem_append_right _ hc

/-- The directive reaches to its brace, which is the last one of the line. -/
theorem includeBody?_text (k : List Char) : includeBody? (d.text.toList ++ '\n' :: k) = some (d.body, '\n' :: k) := by
  have hline : ∀ c ∈ d.body ++ ['\x7d'], (c != '\n') = true := fun c hc => d.not_newline c (d.body_subset_text hc)
  have hreach : (d.body ++ '\x7d' :: '\n' :: k).takeWhile (· != '\n') = d.body ++ ['\x7d'] := by
    rw [List.append_cons, List.takeWhile_append_of_pos hline]
    simp
  have hrest : (d.body ++ '\x7d' :: '\n' :: k).dropWhile (· != '\n') = '\n' :: k := by
    rw [List.append_cons, List.dropWhile_append_of_pos hline]
    rfl
  have hlast : splitLast? ['\x7d'] (d.body ++ ['\x7d']) = some (d.body, []) := splitLast?_append List.not_mem_nil d.body
  obtain ⟨c, cs, hbody⟩ := List.exists_cons_of_ne_nil d.body_ne_nil
  rw [hbody] at hlast
  rw [includeBody?, chars_eq, includeHead?_written, Option.bind_eq_bind, Option.bind_some, hreach, hrest, hbody, hlast]
  rfl

theorem includeDirective_text (k : List Char) :
    includeDirective (d.text.toList ++ '\n' :: k) = some ([], '\n' :: k) := by
  rw [includeDirective, includeBody?_text]
  rfl

/-- The name is what stands between the blanks, also when the brace follows it at once. -/
theorem includedName_text : includedName d.text.toList = some (d.name.toList, []) := by
  obtain ⟨c, cs, hname⟩ := List.exists_cons_of_ne_nil d.name_ne_nil
  have hc : isBlank c = false := (d.letters c (by rw [hname]; exact List.mem_cons_self)).1
  have hletters : ∀ x ∈ d.name.toList, (!isBlank x) = true := by
    intro x hx
    rw [(d.letters x hx).1]
    rfl
  have hbegin : (d.body ++ ['\x7d']).dropWhile isBlank = d.name.toList ++ (d.behind.toList ++ ['\x7d']) := by
    rw [body, List.append_assoc, List.dropWhile_append_of_pos d.before_isBlank, hname, List.append_assoc,
      List.cons_append, List.dropWhile_cons_of_neg (by rw [hc]; decide)]
  have hhead : includeHead? d.text.toList = some (d.body ++ ['\x7d']) := by
    rw [← List.append_nil d.text.toList, chars_eq, includeHead?_written]
  rw [includedName, hhead]
  simp only [hbegin, List.takeWhile_append_of_pos hletters, List.dropWhile_append_of_pos hletters]
  cases hbehind : d.behind.toList with
  | nil =>
    -- the name is read with the brace, which is then its last character
    have hlast : splitLast? ['\x7d'] (c :: (cs ++ ['\x7d'])) = some (c :: cs, []) :=
      splitLast?_append List.not_mem_nil (c :: cs)
    have htake : ['\x7d'].takeWhile (!isBlank ·) = ['\x7d'] := by decide
    have hdrop : ['\x7d'].dropWhile (!isBlank ·) = [] := by decide
    simp only [List.nil_append, htake, hdrop, List.dropWhile_nil, hname, List.cons_append, hlast]
  | cons b bs =>
    have hb : (!isBlank b) = false := by rw [d.behind_isBlank b (by rw [hbehind]; exact List.mem_cons_self)]; rfl
    have htake : (b :: bs ++ ['\x7d']).takeWhile (!isBlank ·) = [] := by simp [hb]
    have hdrop : (b :: bs ++ ['\x7d']).dropWhile (!isBlank ·) = b :: bs ++ ['\x7d'] := by simp [hb]
    have hblanks : (b :: bs ++ ['\x7d']).dropWhile isBlank = ['\x7d'] := by
      rw [← hbehind, List.dropWhile_append_of_pos d.behind_isBlank]
      decide
    simp only [htake, hdrop, hblanks, hname, List.append_nil]

/-- The directive begins with its brace. -/
theorem exists_text_eq_cons : ∃ cs, d.text.toList = '\x7b' :: cs := ⟨_, d.text_toList⟩

theorem pass_includedName : (pass includedName d.text.toList).1 = d.name.toList := by
  obtain ⟨cs, htext⟩ := d.exists_text_eq_cons
  have h := d.includedName_text
  rw [htext] at h ⊢
  rw [pass_of_some List.nil_suffix h]
  exact List.append_nil _

theorem firstInclude?_text (k : List Char) : firstInclude? (d.text.toList ++ '\n' :: k) = some d.text.toList := by
  obtain ⟨cs, htext⟩ := d.exists_text_eq_cons
  have h := d.includeBody?_text k
  rw [htext, List.cons_append] at h ⊢
  have hlength : ('\x7b' :: (cs ++ '\n' :: k)).length - ('\n' :: k).length = ('\x7b' :: cs).length := by
    simp only [List.length_cons, List.length_append]
    omega
  rw [firstInclude?, h]
  simp only [hlength]
  rw [← List.cons_append, List.take_left]

/-- **The rules leave the end of the line**: agent types are looked for in the directive too, but no bracket stands in
it. -/
theorem normalize_text (k : List Char) :
    normalize .groups (d.text.toList ++ '\n' :: k) = '\n' :: normalize .groups k := by
  have hagent : (pass agentType (d.text.toList ++ '\n' :: k)).1 = d.text.toList ++ '\n' :: (pass agentType k).1 := by
    rw [pass_append_of_none fun c hc cs => agentType_of_ne c cs (d.not_bracket c hc),
      pass_of_none (agentType_of_ne '\n' k (by decide))]
  have hinclude : ∀ cs, (pass includeDirective (d.text.toList ++ '\n' :: cs)).1 =
      '\n' :: (pass includeDirective cs).1 := by
    intro cs
    obtain ⟨ds, htext⟩ := d.exists_text_eq_cons
    have h := d.includeDirective_text cs
    rw [htext, List.cons_append] at h ⊢
    rw [pass_of_some (includeDirective_consumes _ _ _ _ h) h, pass_of_none (includeDirective_of_ne '\n' cs (by decide))]
    rfl
  simp only [normalize, hagent, hinclude]
  rw [exhaust_cons_of_none (by decide) (fun cs => doubleParentheses_of_ne '\n' cs (by decide)),
    exhaust_cons_of_none (by decide) (fun cs => operatorParentheses_of_ne '\n' cs (by decide))]

end Inclusion

/-- **A line that includes the domain file names it and changes nothing else**: the file found is the one the line
names, and the tree is the one of the rest. -/
theorem scan_inclusion (d : Inclusion) (rest : String) :
    domainFile? (d.text ++ "\n" ++ rest) = some d.name ∧
      scan .groups (d.text ++ "\n" ++ rest) = scan .groups rest := by
  have hchars : (d.text ++ "\n" ++ rest).toList = d.text.toList ++ '\n' :: rest.toList := by
    simp [String.toList_append]
  constructor
  · rw [domainFile?, hchars, d.plain_text, d.firstInclude?_text, Option.map_some, d.pass_includedName,
      String.ofList_toList]
  · rw [scan, hchars, d.plain_text, d.normalize_text]
    exact congrArg nest (tokens_blanks (r := ['\n']) (forall_mem_of_all (by decide)) _)

/-- A name with a brace, a parenthesis and the end of an agent type, between a blank and a tabulator. -/
def oddName : Inclusion where
  before := " "
  name := "\x7drooms(1-agent]"
  behind := "\t"
  nonempty := by decide
  lower := by decide +kernel
  letters := forall_mem_of_all (by decide +kernel)
  blanks := forall_mem_of_all (by decide +kernel)

theorem scan_inclusion_oddName :
    domainFile? "\x7binclude: \x7drooms(1-agent]\t\x7d\n(P [A-agent\n](q))" = some "\x7drooms(1-agent]" ∧
      scan .groups "\x7binclude: \x7drooms(1-agent]\t\x7d\n(P [A-agent\n](q))" =
        .ok (.list [.word "p", .word "B(a,", .word "q"]) := by
  have htext : "\x7binclude: \x7drooms(1-agent]\t\x7d\n(P [A-agent\n](q))" =
      oddName.text ++ "\n" ++ "(P [A-agent\n](q))" := by
    decide
  have htokens : tokens (normalize .groups (plain (unifyNewlines "(P [A-agent\n](q))".toList))) =
      [.openList, .word "p", .openAgents, .word "a", .closeAgents, .word "q", .closeList] := by decide +kernel
  have hread : scan .groups "(P [A-agent\n](q))" = .ok (.list [.word "p", .word "B(a,", .word "q"]) := by
    rw [scan, htokens]
    rfl
  rw [htext]
  exact ⟨(scan_inclusion oddName _).1, (scan_inclusion oddName _).2.trans hread⟩

end Epistemic.Source
