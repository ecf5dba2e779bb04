/-! The sources of the catalog's components, as lists of lines. Each is a client component of its
own that exports one function. -/

namespace StreamedUi.Catalog.Source

def badge : List String :=
  [
    "\"use client\";",
    "",
    "interface BadgeProps \x7b",
    "  text: string;",
    "  variant?: \"default\" | \"success\" | \"warning\" | \"error\";",
    "\x7d",
    "",
    "export function Badge(\x7b text, variant = \"default\" \x7d: BadgeProps) \x7b",
    "  const colorClass = variant === \"success\" ? \"bg-green-100 text-green-800\" ",
    "    : variant === \"warning\" ? \"bg-yellow-100 text-yellow-800\"",
    "    : variant === \"error\" ? \"bg-red-100 text-red-800\"",
    "    : \"bg-border text-foreground\";",
    "  return <span className=\x7b`px-2 py-0.5 rounded text-xs $\x7bcolorClass\x7d`\x7d>\x7btext\x7d</span>;",
    "\x7d",
    ""
  ]

def button : List String :=
  [
    "\"use client\";",
    "",
    "interface ButtonProps \x7b",
    "  label: string;",
    "  variant?: \"primary\" | \"secondary\" | \"outline\";",
    "  onClick?: () => void;",
    "\x7d",
    "",
    "export function Button(\x7b label, variant = \"primary\", onClick \x7d: ButtonProps) \x7b",
    "  const baseClass = \"px-4 py-2 rounded text-sm font-medium transition-colors\";",
    "  const variantClass = variant === \"primary\" ",
    "    ? \"bg-foreground text-background hover:bg-foreground/90\"",
    "    : variant === \"outline\"",
    "    ? \"border border-border hover:bg-border/50\"",
    "    : \"bg-border/50 hover:bg-border\";",
    "    ",
    "  return (",
    "    <button onClick=\x7bonClick\x7d className=\x7b`$\x7bbaseClass\x7d $\x7bvariantClass\x7d`\x7d>",
    "      \x7blabel\x7d",
    "    </button>",
    "  );",
    "\x7d",
    ""
  ]

def card : List String :=
  [
    "\"use client\";",
    "",
    "import \x7b ReactNode \x7d from \"react\";",
    "",
    "interface CardProps \x7b",
    "  title?: string;",
    "  description?: string;",
    "  maxWidth?: \"sm\" | \"md\" | \"lg\";",
    "  children?: ReactNode;",
    "\x7d",
    "",
    "export function Card(\x7b title, description, maxWidth, children \x7d: CardProps) \x7b",
    "  const widthClass = maxWidth === \"sm\" ? \"max-w-xs\" : maxWidth === \"md\" ? \"max-w-sm\" : maxWidth === \"lg\" ? \"max-w-md\" : \"w-full\";",
    "  ",
    "  return (",
    "    <div className=\x7b`border border-border rounded-lg p-4 bg-background $\x7bwidthClass\x7d`\x7d>",
    "      \x7btitle && <div className=\"font-semibold text-sm mb-1\">\x7btitle\x7d</div>\x7d",
    "      \x7bdescription && <div className=\"text-xs text-muted-foreground mb-2\">\x7bdescription\x7d</div>\x7d",
    "      <div className=\"space-y-3\">\x7bchildren\x7d</div>",
    "    </div>",
    "  );",
    "\x7d",
    ""
  ]

def checkbox : List String :=
  [
    "\"use client\";",
    "",
    "interface CheckboxProps \x7b",
    "  label?: string;",
    "  name?: string;",
    "  checked?: boolean;",
    "\x7d",
    "",
    "export function Checkbox(\x7b label, name, checked \x7d: CheckboxProps) \x7b",
    "  return (",
    "    <label className=\"flex items-center gap-2 text-sm\">",
    "      <input type=\"checkbox\" name=\x7bname\x7d defaultChecked=\x7bchecked\x7d className=\"rounded border-border\" />",
    "      \x7blabel\x7d",
    "    </label>",
    "  );",
    "\x7d",
    ""
  ]

def divider : List String :=
  [
    "\"use client\";",
    "",
    "export function Divider() \x7b",
    "  return <hr className=\"border-border my-4\" />;",
    "\x7d",
    ""
  ]

def form : List String :=
  [
    "\"use client\";",
    "",
    "import \x7b ReactNode \x7d from \"react\";",
    "",
    "interface FormProps \x7b",
    "  children?: ReactNode;",
    "\x7d",
    "",
    "export function Form(\x7b children \x7d: FormProps) \x7b",
    "  return <form className=\"space-y-4\" onSubmit=\x7b(e) => e.preventDefault()\x7d>\x7bchildren\x7d</form>;",
    "\x7d",
    ""
  ]

def grid : List String :=
  [
    "\"use client\";",
    "",
    "import \x7b ReactNode \x7d from \"react\";",
    "",
    "interface GridProps \x7b",
    "  columns?: number;",
    "  gap?: \"sm\" | \"md\" | \"lg\";",
    "  children?: ReactNode;",
    "\x7d",
    "",
    "export function Grid(\x7b columns = 2, gap = \"md\", children \x7d: GridProps) \x7b",
    "  const gapClass = gap === \"sm\" ? \"gap-2\" : gap === \"lg\" ? \"gap-6\" : \"gap-4\";",
    "  return (",
    "    <div className=\x7b`grid $\x7bgapClass\x7d`\x7d style=\x7b\x7b gridTemplateColumns: `repeat($\x7bcolumns\x7d, 1fr)` \x7d\x7d>",
    "      \x7bchildren\x7d",
    "    </div>",
    "  );",
    "\x7d",
    ""
  ]

def heading : List String :=
  [
    "\"use client\";",
    "",
    "interface HeadingProps \x7b",
    "  text: string;",
    "  level?: \"h1\" | \"h2\" | \"h3\" | \"h4\";",
    "\x7d",
    "",
    "export function Heading(\x7b text, level = \"h2\" \x7d: HeadingProps) \x7b",
    "  const Tag = level;",
    "  const sizeClass = level === \"h1\" ? \"text-2xl\" : level === \"h2\" ? \"text-xl\" : level === \"h3\" ? \"text-lg\" : \"text-base\";",
    "  return <Tag className=\x7b`$\x7bsizeClass\x7d font-semibold`\x7d>\x7btext\x7d</Tag>;",
    "\x7d",
    ""
  ]

def input : List String :=
  [
    "\"use client\";",
    "",
    "interface InputProps \x7b",
    "  label?: string;",
    "  name?: string;",
    "  type?: string;",
    "  placeholder?: string;",
    "\x7d",
    "",
    "export function Input(\x7b label, name, type = \"text\", placeholder \x7d: InputProps) \x7b",
    "  return (",
    "    <div>",
    "      \x7blabel && <label className=\"text-xs text-muted-foreground block mb-1\">\x7blabel\x7d</label>\x7d",
    "      <input",
    "        type=\x7btype\x7d",
    "        name=\x7bname\x7d",
    "        placeholder=\x7bplaceholder\x7d",
    "        className=\"h-9 w-full bg-background border border-border rounded px-3 text-sm focus:outline-none focus:ring-2 focus:ring-foreground/20\"",
    "      />",
    "    </div>",
    "  );",
    "\x7d",
    ""
  ]

def radio : List String :=
  [
    "\"use client\";",
    "",
    "interface RadioProps \x7b",
    "  label?: string;",
    "  name?: string;",
    "  options?: Array<\x7b value: string; label: string \x7d>;",
    "\x7d",
    "",
    "export function Radio(\x7b label, name, options = [] \x7d: RadioProps) \x7b",
    "  return (",
    "    <div>",
    "      \x7blabel && <div className=\"text-xs text-muted-foreground mb-1\">\x7blabel\x7d</div>\x7d",
    "      <div className=\"space-y-1\">",
    "        \x7boptions.map((opt) => (",
    "          <label key=\x7bopt.value\x7d className=\"flex items-center gap-2 text-sm\">",
    "            <input type=\"radio\" name=\x7bname\x7d value=\x7bopt.value\x7d className=\"border-border\" />",
    "            \x7bopt.label\x7d",
    "          </label>",
    "        ))\x7d",
    "      </div>",
    "    </div>",
    "  );",
    "\x7d",
    ""
  ]

def rating : List String :=
  [
    "\"use client\";",
    "",
    "interface RatingProps \x7b",
    "  label?: string;",
    "  value?: number;",
    "  max?: number;",
    "\x7d",
    "",
    "export function Rating(\x7b label, value = 0, max = 5 \x7d: RatingProps) \x7b",
    "  return (",
    "    <div>",
    "      \x7blabel && <div className=\"text-xs text-muted-foreground mb-1\">\x7blabel\x7d</div>\x7d",
    "      <div className=\"flex gap-1\">",
    "        \x7bArray.from(\x7b length: max \x7d).map((_, i) => (",
    "          <span key=\x7bi\x7d className=\x7b`text-lg $\x7bi < value ? \"text-yellow-400\" : \"text-border\"\x7d`\x7d>★</span>",
    "        ))\x7d",
    "      </div>",
    "    </div>",
    "  );",
    "\x7d",
    ""
  ]

def select : List String :=
  [
    "\"use client\";",
    "",
    "interface SelectProps \x7b",
    "  label?: string;",
    "  name?: string;",
    "  options?: Array<\x7b value: string; label: string \x7d>;",
    "  placeholder?: string;",
    "\x7d",
    "",
    "export function Select(\x7b label, name, options = [], placeholder \x7d: SelectProps) \x7b",
    "  return (",
    "    <div>",
    "      \x7blabel && <label className=\"text-xs text-muted-foreground block mb-1\">\x7blabel\x7d</label>\x7d",
    "      <select",
    "        name=\x7bname\x7d",
    "        className=\"h-9 w-full bg-background border border-border rounded px-3 text-sm focus:outline-none focus:ring-2 focus:ring-foreground/20\"",
    "      >",
    "        \x7bplaceholder && <option value=\"\">\x7bplaceholder\x7d</option>\x7d",
    "        \x7boptions.map((opt) => (",
    "          <option key=\x7bopt.value\x7d value=\x7bopt.value\x7d>\x7bopt.label\x7d</option>",
    "        ))\x7d",
    "      </select>",
    "    </div>",
    "  );",
    "\x7d",
    ""
  ]

def stack : List String :=
  [
    "\"use client\";",
    "",
    "import \x7b ReactNode \x7d from \"react\";",
    "",
    "interface StackProps \x7b",
    "  direction?: \"horizontal\" | \"vertical\";",
    "  gap?: \"sm\" | \"md\" | \"lg\";",
    "  children?: ReactNode;",
    "\x7d",
    "",
    "export function Stack(\x7b direction = \"vertical\", gap = \"md\", children \x7d: StackProps) \x7b",
    "  const gapClass = gap === \"sm\" ? \"gap-2\" : gap === \"lg\" ? \"gap-6\" : \"gap-4\";",
    "  const dirClass = direction === \"horizontal\" ? \"flex-row\" : \"flex-col\";",
    "  return <div className=\x7b`flex $\x7bdirClass\x7d $\x7bgapClass\x7d`\x7d>\x7bchildren\x7d</div>;",
    "\x7d",
    ""
  ]

def switch : List String :=
  [
    "\"use client\";",
    "",
    "interface SwitchProps \x7b",
    "  label?: string;",
    "  name?: string;",
    "  checked?: boolean;",
    "\x7d",
    "",
    "export function Switch(\x7b label, name, checked \x7d: SwitchProps) \x7b",
    "  return (",
    "    <label className=\"flex items-center justify-between gap-2 text-sm\">",
    "      \x7blabel\x7d",
    "      <input type=\"checkbox\" name=\x7bname\x7d defaultChecked=\x7bchecked\x7d className=\"sr-only peer\" />",
    "      <div className=\"w-9 h-5 bg-border rounded-full peer-checked:bg-foreground transition-colors relative after:content-[''] after:absolute after:top-0.5 after:left-0.5 after:w-4 after:h-4 after:bg-background after:rounded-full after:transition-transform peer-checked:after:translate-x-4\" />",
    "    </label>",
    "  );",
    "\x7d",
    ""
  ]

def text : List String :=
  [
    "\"use client\";",
    "",
    "interface TextProps \x7b",
    "  content: string;",
    "  variant?: \"body\" | \"caption\" | \"label\";",
    "\x7d",
    "",
    "export function Text(\x7b content, variant = \"body\" \x7d: TextProps) \x7b",
    "  const sizeClass = variant === \"caption\" ? \"text-xs\" : variant === \"label\" ? \"text-sm font-medium\" : \"text-sm\";",
    "  return <p className=\x7b`$\x7bsizeClass\x7d text-muted-foreground`\x7d>\x7bcontent\x7d</p>;",
    "\x7d",
    ""
  ]

def textarea : List String :=
  [
    "\"use client\";",
    "",
    "interface TextareaProps \x7b",
    "  label?: string;",
    "  name?: string;",
    "  placeholder?: string;",
    "  rows?: number;",
    "\x7d",
    "",
    "export function Textarea(\x7b label, name, placeholder, rows = 3 \x7d: TextareaProps) \x7b",
    "  return (",
    "    <div>",
    "      \x7blabel && <label className=\"text-xs text-muted-foreground block mb-1\">\x7blabel\x7d</label>\x7d",
    "      <textarea",
    "        name=\x7bname\x7d",
    "        placeholder=\x7bplaceholder\x7d",
    "        rows=\x7brows\x7d",
    "        className=\"w-full bg-background border border-border rounded px-3 py-2 text-sm focus:outline-none focus:ring-2 focus:ring-foreground/20 resize-none\"",
    "      />",
    "    </div>",
    "  );",
    "\x7d",
    ""
  ]

end StreamedUi.Catalog.Source
