import ReactiveView.Page.Interpreter
/-!
# A sample page

A page about a person and some fruits, which shows everything that a page can do: a two-way
binding, a repeat, the answer of a method, and a computed property that a watcher keeps current.

Its session compiles the page, types a new name into its input, and yields the markup before and
after.
-/
namespace ReactiveView.Demo

/-- The markup of the page. -/
def markup : String := "\n".intercalate [
  "<div id=\"app\">",
  "  <input vm-model=\"user.username\">",
  "  <p>\x7b\x7buser.username\x7d\x7d</p>",
  "  <ul>",
  "    <li vm-repeat=\"fruit in fruits\">\x7b\x7b fruit \x7d\x7d</li>",
  "  </ul>",
  "  <h2>\x7b\x7b hello() \x7d\x7d</h2>",
  "  <pre>\x7b\x7b json \x7d\x7d</pre>",
  "</div>"]

/-- The data of the page. -/
def data : Value := .record [
  ("user", .record [("username", .text "Username")]),
  ("fruits", .list [.text "Apple", .text "Orange", .text "Pineapple"])]

/-- The programs of the page: a greeting, the data as text, and a watcher that refreshes this text
after every write to the data. -/
def options : Page.Options Unit where
  data := data
  methods := [("hello", .done (.text "Hello, world!"))]
  computed := [("json", .look fun view => .done (.text view.data.pretty))]
  watches := [(Expression.rootName, fun _ _ => .tell (.refresh (some "json")) fun _ => .done .null)]

/-- The selector of the part that is compiled and shown. -/
def mount : String := "#app"

/-- The page before its markup is loaded. -/
def page : Page Unit := Page.assemble options (Registry.withBuiltins []) [] Surface.blank ()

/-- A depth that is enough for the session. -/
def depth : Nat := 100

/-- A command of the session. -/
def tell (c : Command) : Run (Page Unit) c.Reply := Page.perform (Page.interpret depth) depth c

/-- The page compiled and a name typed into its input; the markup before and after. -/
def session : Run (Page Unit) (String × String) := do
  tell (.surface (.load markup))
  tell (.compile (.selector mount))
  let app ← Page.askSurface fun s => s.find mount
  let before ← Page.askSurface fun s => s.outerMarkup app
  let input ← Page.askSurface fun s => s.find "input"
  tell (.dispatch input Event.default (some "Alice"))
  let after ← Page.askSurface fun s => s.outerMarkup app
  pure (before, after)

/-- What the session prints: an empty line is between the two markups. -/
def output : Outcome (Page Unit) String :=
  session.andThen (fun shown => pure (shown.1 ++ "\n\n" ++ shown.2 ++ "\n")) page

end ReactiveView.Demo
