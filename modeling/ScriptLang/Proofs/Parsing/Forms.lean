import ScriptLang.Tree.Printer

/-!
# Texts of trees as forms

* `Form` — words, and forms in parentheses: what the text of a tree is made of;
* `Expr.chars_form`, `Stmt.chars_form`, `toList_programText` — the text of a tree is that of its form;
* `Form.chars_cancel`, `Form.lines_injective` — a form can be told from what stands behind it, so its text has one
  reading.

A word ends where a space, a parenthesis or a line ends it.  This is all that the reading of a form depends on; which
forms stand for trees is no matter here.
-/

namespace ScriptLang

/-- A word, or forms in parentheses. -/
inductive Form
  | word (text : String)
  | group (parts : List Form)

/-! ## the text of a form -/

mutual

/-- The characters of a form. -/
def Form.chars : Form → List Char
  | .word w => w.toList
  | .group [] => ['(', ')']
  | .group (f :: fs) => '(' :: (f.chars ++ (Form.spaced fs ++ [')']))

/-- The characters of forms, each with a space before it. -/
def Form.spaced : List Form → List Char
  | [] => []
  | f :: fs => ' ' :: (f.chars ++ Form.spaced fs)

end

/-- The characters of forms, one on each line. -/
def Form.lines (fs : List Form) : List Char := ['\n'].intercalate (fs.map Form.chars)

/-- The characters that end a word. -/
def Form.stop (c : Char) : Bool := c = ' ' || c = '(' || c = ')' || c = '\n'

/-- A word that is not empty and goes on to its end. -/
def Solid (w : String) : Prop := w ≠ "" ∧ ∀ c ∈ w.toList, Form.stop c = false

instance (w : String) : Decidable (Solid w) :=
  decidable_of_iff (w ≠ "" ∧ w.toList.all (fun c => !Form.stop c) = true) (by simp [Solid])

/-- All words of the form are solid. -/
inductive Form.Sound : Form → Prop
  | word {w : String} : Solid w → Form.Sound (.word w)
  | group {parts : List Form} : (∀ f ∈ parts, f.Sound) → Form.Sound (.group parts)

/-- Nothing follows, or something that ends a word. -/
def Form.Ends (r : List Char) : Prop := ∀ c, r.head? = some c → Form.stop c = true

section Cancel

variable {f : Form} {fs gs : List Form} {r s : List Char}

theorem Form.sound_group : (Form.group fs).Sound ↔ ∀ f ∈ fs, f.Sound := by
  constructor
  · intro h
    cases h with
    | group h => exact h
  · exact .group

theorem Form.ends_spaced (hr : Ends r) : Ends (Form.spaced fs ++ r) := by
  cases fs with
  | nil => exact hr
  | cons f fs =>
    intro c hc
    cases hc
    rfl

theorem Form.ends_close (r : List Char) : Ends (')' :: r) := by
  intro c hc
  cases hc
  rfl

theorem Solid.append_ne {w : String} (hw : Solid w) {c : Char} (hc : Form.stop c = true) : w.toList ++ r ≠ c :: s := by
  intro heq
  cases hchars : w.toList with
  | nil => exact hw.1 (String.toList_eq_nil_iff.1 hchars)
  | cons d t =>
    rw [hchars] at heq
    obtain rfl : d = c := (List.cons.inj heq).1
    have hd : Form.stop d = false := hw.2 d (by rw [hchars]; exact List.mem_cons_self)
    rw [hc] at hd
    cases hd

/-- Forms in parentheses start with the one that opens. -/
theorem Form.exists_chars_group (fs : List Form) : ∃ t, (Form.group fs).chars = '(' :: t := by
  cases fs with
  | nil => exact ⟨_, rfl⟩
  | cons f fs => exact ⟨_, rfl⟩

theorem Form.Sound.append_ne_close (h : f.Sound) : f.chars ++ r ≠ ')' :: s := by
  cases h with
  | word hw => exact hw.append_ne rfl
  | @group parts _ =>
    obtain ⟨t, ht⟩ := Form.exists_chars_group parts
    rw [ht]
    intro heq
    cases heq

/-- A word is what stands before the first character that ends it. -/
theorem Solid.takeWhile {w : String} (hw : Solid w) (hr : Form.Ends r) :
    (w.toList ++ r).takeWhile (fun c => !Form.stop c) = w.toList := by
  have hall : ∀ c ∈ w.toList, (!Form.stop c) = true := fun c hc => by rw [hw.2 c hc]; rfl
  rw [List.takeWhile_append_of_pos hall]
  cases r with
  | nil => simp
  | cons c r =>
    have hc : Form.stop c = true := hr c rfl
    rw [List.takeWhile_cons_of_neg (by simp [hc]), List.append_nil]

theorem Solid.cancel {v w : String} (hv : Solid v) (hw : Solid w) (hr : Form.Ends r) (hs : Form.Ends s)
    (h : v.toList ++ r = w.toList ++ s) : v = w ∧ r = s := by
  have hword : v.toList = w.toList := by rw [← hv.takeWhile hr, ← hw.takeWhile hs, h]
  rw [hword] at h
  exact ⟨String.toList_injective hword, List.append_cancel_left h⟩

mutual

/-- A form can be told from what stands behind it. -/
theorem Form.chars_cancel (f : Form) {g : Form} (hf : f.Sound) (hg : g.Sound) {r s : List Char} (hr : Ends r)
    (hs : Ends s) (h : f.chars ++ r = g.chars ++ s) : f = g ∧ r = s := by
  cases f with
  | word v =>
    cases hf with
    | word hv =>
    cases g with
    | word w =>
      cases hg with
      | word hw =>
        obtain ⟨rfl, hrest⟩ := hv.cancel hw hr hs h
        exact ⟨rfl, hrest⟩
    | group gs =>
      obtain ⟨t, ht⟩ := Form.exists_chars_group gs
      rw [ht] at h
      exact absurd h (hv.append_ne rfl)
  | group fs =>
    have hfs := Form.sound_group.1 hf
    cases g with
    | word w =>
      cases hg with
      | word hw =>
        obtain ⟨t, ht⟩ := Form.exists_chars_group fs
        rw [ht] at h
        exact absurd h.symm (hw.append_ne rfl)
    | group gs =>
      have hgs := Form.sound_group.1 hg
      cases fs with
      | nil =>
        cases gs with
        | nil => exact ⟨rfl, List.append_cancel_left h⟩
        | cons g gs =>
          have hinner : ')' :: r = g.chars ++ (Form.spaced gs ++ [')'] ++ s) := by
            simpa [Form.chars] using h
          exact absurd hinner.symm (hgs g List.mem_cons_self).append_ne_close
      | cons f fs =>
        cases gs with
        | nil =>
          have hinner : f.chars ++ (Form.spaced fs ++ [')'] ++ r) = ')' :: s := by
            simpa [Form.chars] using h
          exact absurd hinner (hfs f List.mem_cons_self).append_ne_close
        | cons g gs =>
          have hinner : f.chars ++ (Form.spaced fs ++ ')' :: r) = g.chars ++ (Form.spaced gs ++ ')' :: s) := by
            simpa [Form.chars] using h
          obtain ⟨rfl, hmore⟩ := Form.chars_cancel f (hfs f List.mem_cons_self) (hgs g List.mem_cons_self)
            (Form.ends_spaced (Form.ends_close r)) (Form.ends_spaced (Form.ends_close s)) hinner
          obtain ⟨rfl, hrest⟩ := Form.spaced_cancel fs (fun f' h' => hfs f' (List.mem_cons_of_mem _ h'))
            (fun g' h' => hgs g' (List.mem_cons_of_mem _ h')) hmore
          exact ⟨rfl, hrest⟩

/-- Forms with spaces before them can be told from the parenthesis that closes behind them. -/
theorem Form.spaced_cancel (fs : List Form) {gs : List Form} (hf : ∀ f ∈ fs, f.Sound) (hg : ∀ g ∈ gs, g.Sound)
    {r s : List Char} (h : Form.spaced fs ++ ')' :: r = Form.spaced gs ++ ')' :: s) : fs = gs ∧ r = s := by
  cases fs with
  | nil =>
    cases gs with
    | nil => exact ⟨rfl, (List.cons.inj h).2⟩
    | cons g gs => cases h
  | cons f fs =>
    cases gs with
    | nil => cases h
    | cons g gs =>
      have hinner : f.chars ++ (Form.spaced fs ++ ')' :: r) = g.chars ++ (Form.spaced gs ++ ')' :: s) := by
        simpa [Form.spaced] using h
      obtain ⟨rfl, hmore⟩ := Form.chars_cancel f (hf f List.mem_cons_self) (hg g List.mem_cons_self)
        (Form.ends_spaced (Form.ends_close r)) (Form.ends_spaced (Form.ends_close s)) hinner
      obtain ⟨rfl, hrest⟩ := Form.spaced_cancel fs (fun f' h' => hf f' (List.mem_cons_of_mem _ h'))
        (fun g' h' => hg g' (List.mem_cons_of_mem _ h')) hmore
      exact ⟨rfl, hrest⟩

end

end Cancel

/-! ## lines -/

section Lines

variable {f g : Form} {fs gs : List Form}

theorem Form.chars_ne_nil (hf : f.Sound) : f.chars ≠ [] := by
  cases hf with
  | word hw => exact fun h => hw.1 (String.toList_eq_nil_iff.1 h)
  | @group parts _ =>
    obtain ⟨t, ht⟩ := Form.exists_chars_group parts
    rw [ht]
    exact List.cons_ne_nil _ _

/-- The first line, and a line end before the others. -/
theorem Form.exists_lines_cons (f : Form) (fs : List Form) : ∃ t, Form.lines (f :: fs) = f.chars ++ t ∧ Form.Ends t ∧
    t = if fs.isEmpty then [] else '\n' :: Form.lines fs := by
  cases fs with
  | nil =>
    refine ⟨[], ?_, fun c hc => (by cases hc), rfl⟩
    rw [Form.lines, List.map_singleton, List.intercalate_singleton, List.append_nil]
  | cons g fs =>
    refine ⟨'\n' :: Form.lines (g :: fs), ?_, fun c hc => (by cases hc; rfl), rfl⟩
    rw [Form.lines, List.map_cons, List.map_cons, List.intercalate_cons_cons, List.append_assoc]
    rfl

theorem Form.lines_ne_nil (hf : f.Sound) : Form.lines (f :: fs) ≠ [] := by
  obtain ⟨t, ht, -, -⟩ := Form.exists_lines_cons f fs
  rw [ht]
  exact fun h => Form.chars_ne_nil hf (List.append_eq_nil_iff.1 h).1

/-- Forms on lines of their own have one reading. -/
theorem Form.lines_injective (hf : ∀ f ∈ fs, f.Sound) (hg : ∀ g ∈ gs, g.Sound) (h : Form.lines fs = Form.lines gs) :
    fs = gs := by
  induction fs generalizing gs with
  | nil =>
    cases gs with
    | nil => rfl
    | cons g gs => exact absurd h.symm (Form.lines_ne_nil (hg g List.mem_cons_self))
  | cons f fs ih =>
    cases gs with
    | nil => exact absurd h (Form.lines_ne_nil (hf f List.mem_cons_self))
    | cons g gs =>
      have hfs : ∀ f' ∈ fs, f'.Sound := fun f' h' => hf f' (List.mem_cons_of_mem _ h')
      have hgs : ∀ g' ∈ gs, g'.Sound := fun g' h' => hg g' (List.mem_cons_of_mem _ h')
      obtain ⟨t, ht, htends, htail⟩ := Form.exists_lines_cons f fs
      obtain ⟨u, hu, huends, hutail⟩ := Form.exists_lines_cons g gs
      rw [ht, hu] at h
      obtain ⟨rfl, htu⟩ := Form.chars_cancel f (hf f List.mem_cons_self) (hg g List.mem_cons_self) htends huends h
      rw [htail, hutail] at htu
      cases fs with
      | nil =>
        cases gs with
        | nil => rfl
        | cons g gs => cases htu
      | cons f' fs =>
        cases gs with
        | nil => cases htu
        | cons g' gs => rw [ih hfs hgs (List.cons.inj htu).2]

end Lines

/-! ## the forms of trees -/

mutual

/-- The form of an expression. -/
def Expr.form : Expr → Form
  | .literal l => .word l.text
  | .group e => .group [.word "group", e.form]
  | .unary op r => .group [.word op.lexeme, r.form]
  | .binary l op r => .group [.word op.lexeme, l.form, r.form]
  | .logical l op r => .group [.word op.lexeme, l.form, r.form]
  | .variable _ name => .word name.lexeme
  | .assign _ name v => .group [.word "=", .word name.lexeme, v.form]
  | .call f _ args => .group (.word "call" :: f.form :: Expr.formAll args)
  | .get o name => .group [.word ".", o.form, .word name.lexeme]
  | .set o name v => .group [.word "=", .group [.word ".", o.form, .word name.lexeme], v.form]
  | .this _ _ => .word "this"
  | .super _ _ method => .group [.word "super", .word method.lexeme]

/-- The forms of expressions. -/
def Expr.formAll : List Expr → List Form
  | [] => []
  | e :: es => e.form :: Expr.formAll es

end

/-- The form of an expression that may be absent. -/
def Expr.formIn (e : Option Expr) : List Form := e.elim [] fun e => [e.form]

mutual

/-- The form of a statement. -/
def Stmt.form : Stmt → Form
  | .expr e => .group [.word "expr", e.form]
  | .print _ e => .group [.word "print", e.form]
  | .varDecl name e => .group (.word "var" :: .word name.lexeme :: Expr.formIn e)
  | .block b => .group (.word "block" :: Stmt.formAll b)
  | .ifThen c t => .group [.word "if", c.form, t.form]
  | .ifElse c t e => .group [.word "if", c.form, t.form, e.form]
  | .loop c b i => .group (.word "while" :: c.form :: b.form :: Expr.formIn i)
  | .funDecl d => d.form
  | .returnFrom _ e => .group (.word "return" :: Expr.formIn e)
  | .classDecl name none ms => .group (.word "class" :: .word name.lexeme :: FunctionDecl.formAll ms)
  | .classDecl name (some s) ms =>
    .group (.word "class" :: .word name.lexeme :: .word "<" :: s.form :: FunctionDecl.formAll ms)
  | .breakLoop _ => .group [.word "break"]
  | .continueLoop _ => .group [.word "continue"]

/-- The forms of statements. -/
def Stmt.formAll : List Stmt → List Form
  | [] => []
  | s :: rest => s.form :: Stmt.formAll rest

/-- The form of a function or method. -/
def FunctionDecl.form : FunctionDecl → Form
  | .mk name params body =>
    .group (.word "fun" :: .word name.lexeme :: .group (params.map fun p => .word p.lexeme) :: Stmt.formAll body)

/-- The forms of functions. -/
def FunctionDecl.formAll : List FunctionDecl → List Form
  | [] => []
  | d :: ds => d.form :: FunctionDecl.formAll ds

end

/-! ## the text of a tree is that of its form -/

/-- Words in parentheses have single spaces between them. -/
theorem Form.chars_words (ws : List String) :
    (Form.group (ws.map Form.word)).chars = '(' :: ((String.intercalate " " ws).toList ++ [')']) := by
  have hspaced : ∀ (w : String) (ws : List String), w.toList ++ Form.spaced (ws.map Form.word) =
      (String.intercalate " " (w :: ws)).toList := by
    intro w ws
    induction ws generalizing w with
    | nil => simp [Form.spaced]
    | cons v ws ih =>
      rw [String.intercalate_cons_cons, String.toList_append, String.toList_append, ← ih v]
      simp [Form.spaced, Form.chars]
  cases ws with
  | nil => rfl
  | cons w ws =>
    rw [List.map_cons, ← hspaced, List.append_assoc]
    rfl

mutual

theorem Expr.chars_form (x : Expr) : x.form.chars = x.text.toList := by
  cases x with
  | literal l => rfl
  | group e => simp [Expr.form, Expr.text, Form.chars, Form.spaced, Expr.chars_form e]
  | unary op r => simp [Expr.form, Expr.text, Form.chars, Form.spaced, Expr.chars_form r]
  | binary l op r => simp [Expr.form, Expr.text, Form.chars, Form.spaced, Expr.chars_form l, Expr.chars_form r]
  | logical l op r => simp [Expr.form, Expr.text, Form.chars, Form.spaced, Expr.chars_form l, Expr.chars_form r]
  | «variable» _ name => rfl
  | assign _ name v => simp [Expr.form, Expr.text, Form.chars, Form.spaced, Expr.chars_form v]
  | call f _ args =>
    simp [Expr.form, Expr.text, Form.chars, Form.spaced, Expr.chars_form f, Expr.spaced_formAll args]
  | get o name => simp [Expr.form, Expr.text, Form.chars, Form.spaced, Expr.chars_form o]
  | set o name v => simp [Expr.form, Expr.text, Form.chars, Form.spaced, Expr.chars_form o, Expr.chars_form v]
  | this _ _ => rfl
  | super _ _ method => simp [Expr.form, Expr.text, Form.chars, Form.spaced]

theorem Expr.spaced_formAll (xs : List Expr) : Form.spaced (Expr.formAll xs) = (Expr.textAll xs).toList := by
  cases xs with
  | nil => rfl
  | cons x xs => simp [Expr.formAll, Expr.textAll, Form.spaced, Expr.chars_form x, Expr.spaced_formAll xs]

end

theorem Expr.spaced_formIn (x : Option Expr) : Form.spaced (Expr.formIn x) = (Expr.textIn x).toList := by
  cases x with
  | none => rfl
  | some x => simp [Expr.formIn, Expr.textIn, Form.spaced, Expr.chars_form x]

mutual

theorem Stmt.chars_form (s : Stmt) : s.form.chars = s.text.toList := by
  cases s with
  | expr e => simp [Stmt.form, Stmt.text, Form.chars, Form.spaced, Expr.chars_form e]
  | print _ e => simp [Stmt.form, Stmt.text, Form.chars, Form.spaced, Expr.chars_form e]
  | varDecl name e => simp [Stmt.form, Stmt.text, Form.chars, Form.spaced, Expr.spaced_formIn e]
  | block b => simp [Stmt.form, Stmt.text, Form.chars, Stmt.spaced_formAll b]
  | ifThen c t => simp [Stmt.form, Stmt.text, Form.chars, Form.spaced, Expr.chars_form c, Stmt.chars_form t]
  | ifElse c t e =>
    simp [Stmt.form, Stmt.text, Form.chars, Form.spaced, Expr.chars_form c, Stmt.chars_form t, Stmt.chars_form e]
  | loop c b i =>
    simp [Stmt.form, Stmt.text, Form.chars, Form.spaced, Expr.chars_form c, Stmt.chars_form b, Expr.spaced_formIn i]
  | funDecl d => simp [Stmt.form, Stmt.text, FunctionDecl.chars_form d]
  | returnFrom _ e => simp [Stmt.form, Stmt.text, Form.chars, Expr.spaced_formIn e]
  | classDecl name superclass ms =>
    cases superclass with
    | none => simp [Stmt.form, Stmt.text, Form.chars, Form.spaced, FunctionDecl.spaced_formAll ms]
    | some s =>
      simp [Stmt.form, Stmt.text, Form.chars, Form.spaced, Expr.chars_form s, FunctionDecl.spaced_formAll ms]
  | breakLoop _ => simp [Stmt.form, Stmt.text, Form.chars, Form.spaced]
  | continueLoop _ => simp [Stmt.form, Stmt.text, Form.chars, Form.spaced]

theorem Stmt.spaced_formAll (body : List Stmt) : Form.spaced (Stmt.formAll body) = (Stmt.textAll body).toList := by
  cases body with
  | nil => rfl
  | cons s body => simp [Stmt.formAll, Stmt.textAll, Form.spaced, Stmt.chars_form s, Stmt.spaced_formAll body]

theorem FunctionDecl.chars_form (d : FunctionDecl) : d.form.chars = d.text.toList := by
  cases d with
  | mk name params body =>
    have hparams := Form.chars_words (params.map Token.lexeme)
    rw [List.map_map] at hparams
    simp only [FunctionDecl.form, FunctionDecl.text, Form.chars, Form.spaced, Stmt.spaced_formAll body]
    rw [show (fun p : Token => Form.word p.lexeme) = Form.word ∘ Token.lexeme from rfl, hparams]
    simp

theorem FunctionDecl.spaced_formAll (ds : List FunctionDecl) :
    Form.spaced (FunctionDecl.formAll ds) = (FunctionDecl.textAll ds).toList := by
  cases ds with
  | nil => rfl
  | cons d ds =>
    simp [FunctionDecl.formAll, FunctionDecl.textAll, Form.spaced, FunctionDecl.chars_form d,
      FunctionDecl.spaced_formAll ds]

end

theorem Stmt.formAll_eq_map (body : List Stmt) : Stmt.formAll body = body.map Stmt.form := by
  induction body with
  | nil => rfl
  | cons s body ih => rw [Stmt.formAll, ih, List.map_cons]

/-- The text of a program has the form of each statement on a line of its own. -/
theorem toList_programText (program : List Stmt) : (programText program).toList = Form.lines (Stmt.formAll program) := by
  rw [programText, String.toList_intercalate, List.map_map, Form.lines, Stmt.formAll_eq_map, List.map_map]
  congr 1
  refine List.map_congr_left fun s _ => ?_
  exact (Stmt.chars_form s).symm

end ScriptLang
