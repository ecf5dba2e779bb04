/-! Files of a project that are the same for every tree, as lists of lines. -/

namespace StreamedUi.Project.Source

def nextConfig : List String :=
  [
    "/** @type \x7bimport('next').NextConfig\x7d */",
    "module.exports = \x7b",
    "  reactStrictMode: true,",
    "\x7d;",
    ""
  ]

def globalStyles : List String :=
  [
    "@tailwind base;",
    "@tailwind components;",
    "@tailwind utilities;",
    "",
    ":root \x7b",
    "  --background: #ffffff;",
    "  --foreground: #171717;",
    "  --border: #e5e5e5;",
    "  --muted-foreground: #737373;",
    "\x7d",
    "",
    "@media (prefers-color-scheme: dark) \x7b",
    "  :root \x7b",
    "    --background: #0a0a0a;",
    "    --foreground: #ededed;",
    "    --border: #262626;",
    "    --muted-foreground: #a3a3a3;",
    "  \x7d",
    "\x7d",
    "",
    "body \x7b",
    "  background: var(--background);",
    "  color: var(--foreground);",
    "  font-family: system-ui, sans-serif;",
    "\x7d",
    ""
  ]

def tailwindConfig : List String :=
  [
    "/** @type \x7bimport('tailwindcss').Config\x7d */",
    "module.exports = \x7b",
    "  content: [\"./app/**/*.\x7bts,tsx\x7d\", \"./components/**/*.\x7bts,tsx\x7d\"],",
    "  theme: \x7b",
    "    extend: \x7b",
    "      colors: \x7b",
    "        background: \"var(--background)\",",
    "        foreground: \"var(--foreground)\",",
    "        border: \"var(--border)\",",
    "        \"muted-foreground\": \"var(--muted-foreground)\",",
    "      \x7d,",
    "    \x7d,",
    "  \x7d,",
    "  plugins: [],",
    "\x7d;",
    ""
  ]

def rootLayout : List String :=
  [
    "import type \x7b Metadata \x7d from \"next\";",
    "import \"./globals.css\";",
    "",
    "export const metadata: Metadata = \x7b",
    "  title: \"Generated App\",",
    "\x7d;",
    "",
    "export default function RootLayout(\x7b",
    "  children,",
    "\x7d: \x7b",
    "  children: React.ReactNode;",
    "\x7d) \x7b",
    "  return (",
    "    <html lang=\"en\">",
    "      <body>\x7bchildren\x7d</body>",
    "    </html>",
    "  );",
    "\x7d",
    ""
  ]

def readme : List String :=
  [
    "# Generated App",
    "",
    "This app was generated from a streamed UI tree.",
    "",
    "## Getting Started",
    "",
    "```bash",
    "npm install",
    "npm run dev",
    "```",
    "",
    "Open [http://localhost:3000](http://localhost:3000) to view.",
    ""
  ]

end StreamedUi.Project.Source
